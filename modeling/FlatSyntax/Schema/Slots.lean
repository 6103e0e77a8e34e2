import FlatSyntax.Schema.Layout

/-!
# Name slots

The cases of each name slot of the module record: what an import takes from the imported module,
and what an export takes, exports and binds.
-/

namespace FlatSyntax.SlotKind

/-- The cases of a name slot, in declaration order. -/
def cases : SlotKind → List SlotCase
  | .importImportName =>
      [⟨"Name", 0, "Name", .name⟩, ⟨"Default", 2, "Default", .range⟩,
       ⟨"NamespaceObject", 1, "NamespaceObject", .nothing⟩]
  | .exportImportName =>
      [⟨"Name", 0, "Name", .name⟩, ⟨"All", 1, "All", .nothing⟩,
       ⟨"AllButDefault", 2, "AllButDefault", .nothing⟩, ⟨"Null", 3, "None", .nothing⟩]
  | .exportExportName =>
      [⟨"Name", 0, "Name", .name⟩, ⟨"Default", 1, "Default", .range⟩,
       ⟨"Null", 2, "None", .nothing⟩]
  | .exportLocalName =>
      [⟨"Name", 0, "Name", .name⟩, ⟨"Default", 1, "Default", .name⟩, ⟨"Null", 2, "None", .nothing⟩]

/-- The case selected by a tag. -/
def case? (kind : SlotKind) (tag : UInt8) : Option SlotCase :=
  kind.cases.find? fun c => c.tag == tag

end FlatSyntax.SlotKind
