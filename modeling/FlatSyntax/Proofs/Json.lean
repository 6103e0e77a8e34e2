import Mathlib
import FlatSyntax.Proofs.Nearest
import FlatSyntax.Value.Basic

/-!
# JSON documents and their reading

The grammar of JSON says which texts are documents, and a reader says which value a document denotes.
The reader takes documents only: a text that it makes a value of is one. It refuses the documents
that denote no value, those with half of a surrogate pair and those with a number that is too large.

A number denotes the double-precision number nearest to it. Of entries with one key the last counts.
-/

namespace FlatSyntax.Json

/-! ## Grammar -/

/-- Whether a character may stand between tokens. -/
def isBlank (c : Char) : Bool := c == ' ' || c == '\t' || c == '\n' || c == '\r'

/-- Characters that may stand between tokens. -/
def Blanks (cs : List Char) : Prop := ∀ c ∈ cs, isBlank c = true

/-- The letters of the short escapes, and what they stand for. -/
def shortEscapes : List (Char × Char) :=
  [('"', '"'), ('\\', '\\'), ('/', '/'), ('b', '\x08'), ('f', '\x0c'), ('n', '\n'), ('r', '\r'),
   ('t', '\t')]

/-- The value of a hexadecimal digit. -/
def hexDigit? (c : Char) : Option Nat :=
  if '0' ≤ c ∧ c ≤ '9' then some (c.toNat - 48)
  else if 'a' ≤ c ∧ c ≤ 'f' then some (c.toNat - 87)
  else if 'A' ≤ c ∧ c ≤ 'F' then some (c.toNat - 55)
  else none

/-- A character of a string, as it is written. -/
inductive IsCharacter : List Char → Prop where
  /-- The character itself. -/
  | plain {c : Char} (quote : c ≠ '"') (backslash : c ≠ '\\') (control : 0x20 ≤ c.toNat) :
      IsCharacter [c]
  /-- A short escape. -/
  | short {letter : Char} (h : (shortEscapes.lookup letter).isSome = true) :
      IsCharacter ['\\', letter]
  /-- A code unit in four hexadecimal digits. -/
  | unit {digits : List Char} (length : digits.length = 4)
      (hex : ∀ d ∈ digits, (hexDigit? d).isSome = true) : IsCharacter ('\\' :: 'u' :: digits)

/-- The characters of a string. -/
inductive IsCharacters : List Char → Prop where
  | nil : IsCharacters []
  | cons {cs more : List Char} (h : IsCharacter cs) (rest : IsCharacters more) :
      IsCharacters (cs ++ more)

/-- A string: characters between quotes. -/
inductive IsString : List Char → Prop where
  | mk {cs : List Char} (h : IsCharacters cs) : IsString ('"' :: cs ++ ['"'])

/-- Digits, at least one. -/
def IsDigits (cs : List Char) : Prop := cs ≠ [] ∧ ∀ c ∈ cs, c.isDigit = true

/-- The whole part of a number: no zero stands before other digits. -/
def IsWhole (cs : List Char) : Prop := IsDigits cs ∧ (cs.head? = some '0' → cs = ['0'])

/-- The part of a number after the point, with the point. -/
inductive IsFraction : List Char → Prop where
  | none : IsFraction []
  | digits {cs : List Char} (h : IsDigits cs) : IsFraction ('.' :: cs)

/-- The exponent of a number, with its letter. -/
inductive IsExponent : List Char → Prop where
  | none : IsExponent []
  | digits {letter : Char} {sign cs : List Char} (hletter : letter = 'e' ∨ letter = 'E')
      (hsign : sign = [] ∨ sign = ['+'] ∨ sign = ['-']) (h : IsDigits cs) :
      IsExponent (letter :: (sign ++ cs))

/-- A number. -/
inductive IsNumber : List Char → Prop where
  | mk {sign whole fraction exponent : List Char} (hsign : sign = [] ∨ sign = ['-'])
      (hwhole : IsWhole whole) (hfraction : IsFraction fraction)
      (hexponent : IsExponent exponent) : IsNumber (sign ++ whole ++ fraction ++ exponent)

mutual

/-- A value. -/
inductive IsValue : List Char → Prop where
  | null : IsValue "null".toList
  | true : IsValue "true".toList
  | false : IsValue "false".toList
  | number {cs : List Char} (h : IsNumber cs) : IsValue cs
  | string {cs : List Char} (h : IsString cs) : IsValue cs
  | emptyArray {blanks : List Char} (h : Blanks blanks) : IsValue ('[' :: blanks ++ [']'])
  | array {cs : List Char} (h : IsElements cs) : IsValue ('[' :: cs ++ [']'])
  | emptyObject {blanks : List Char} (h : Blanks blanks) : IsValue ('\x7b' :: blanks ++ ['\x7d'])
  | object {cs : List Char} (h : IsMembers cs) : IsValue ('\x7b' :: cs ++ ['\x7d'])

/-- A value between blanks. -/
inductive IsElement : List Char → Prop where
  | mk {before cs after : List Char} (hbefore : Blanks before) (h : IsValue cs)
      (hafter : Blanks after) : IsElement (before ++ cs ++ after)

/-- The elements of an array. -/
inductive IsElements : List Char → Prop where
  | one {cs : List Char} (h : IsElement cs) : IsElements cs
  | more {cs others : List Char} (h : IsElement cs) (rest : IsElements others) :
      IsElements (cs ++ ',' :: others)

/-- A key and its value. -/
inductive IsMember : List Char → Prop where
  | mk {before key after cs : List Char} (hbefore : Blanks before) (hkey : IsString key)
      (hafter : Blanks after) (h : IsElement cs) : IsMember (before ++ key ++ after ++ ':' :: cs)

/-- The members of an object. -/
inductive IsMembers : List Char → Prop where
  | one {cs : List Char} (h : IsMember cs) : IsMembers cs
  | more {cs others : List Char} (h : IsMember cs) (rest : IsMembers others) :
      IsMembers (cs ++ ',' :: others)

end

/-! ## Reader -/

/-- The text after a word. -/
def strip? : List Char → List Char → Option (List Char)
  | [], cs => some cs
  | _ :: _, [] => none
  | w :: word, c :: cs => if w = c then strip? word cs else none

theorem strip?_eq_some_iff {word cs rest : List Char} :
    strip? word cs = some rest ↔ cs = word ++ rest := by
  induction word generalizing cs with
  | nil => simp [strip?]
  | cons w word ih =>
    cases cs with
    | nil => simp [strip?]
    | cons c cs =>
      by_cases hwc : w = c
      · simp [strip?, hwc, ih]
      · simp [strip?, hwc, Ne.symm hwc]

/-- The text after blanks. -/
def skip (cs : List Char) : List Char := cs.dropWhile isBlank

theorem exists_blanks (cs : List Char) : ∃ blanks, Blanks blanks ∧ cs = blanks ++ skip cs :=
  ⟨cs.takeWhile isBlank, fun _ hc => List.mem_takeWhile_imp hc,
    (List.takeWhile_append_dropWhile ..).symm⟩

/-! ### Strings -/

/-- Reads hexadecimal digits onto a number. -/
def hexOnto? : Nat → List Char → Option Nat
  | n, [] => some n
  | n, c :: rest => do hexOnto? (16 * n + (← hexDigit? c)) rest

/-- The code unit that four hexadecimal digits denote, and the text after them. -/
def unit? (cs : List Char) : Option (Nat × List Char) :=
  if 4 ≤ cs.length then (hexOnto? 0 (cs.take 4)).map fun unit => (unit, cs.drop 4) else none

/-- The character that an escape denotes, and the text after it. The backslash has been read. -/
def escaped? (cs : List Char) : Option (Char × List Char) :=
  match strip? ['u'] cs with
  | some rest => do
    let (unit, rest) ← unit? rest
    if 0xd800 ≤ unit ∧ unit < 0xdc00 then
      let rest ← strip? ['\\', 'u'] rest
      let (low, rest) ← unit? rest
      guard (0xdc00 ≤ low ∧ low < 0xe000)
      return (Char.ofNat (0x10000 + (unit - 0xd800) * 0x400 + (low - 0xdc00)), rest)
    else
      guard (unit < 0xdc00 ∨ 0xe000 ≤ unit)
      return (Char.ofNat unit, rest)
  | none =>
    match cs with
    | [] => none
    | letter :: rest => (shortEscapes.lookup letter).map fun c => (c, rest)

/-- The first character of the rest of a string, and the text after it. -/
def character? : List Char → Option (Char × List Char)
  | [] => none
  | c :: rest =>
    if c = '\\' then escaped? rest
    else if c = '"' ∨ c.toNat < 0x20 then none
    else some (c, rest)

theorem isSome_hexDigit? {n m : Nat} {cs : List Char} (h : hexOnto? n cs = some m) :
    ∀ d ∈ cs, (hexDigit? d).isSome = true := by
  induction cs generalizing n with
  | nil => simp
  | cons c rest ih =>
    rw [hexOnto?] at h
    obtain ⟨value, hvalue, hrest⟩ := Option.bind_eq_some_iff.mp h
    intro d hd
    rcases List.mem_cons.mp hd with rfl | hd
    · exact Option.isSome_of_eq_some hvalue
    · exact ih hrest d hd

theorem unit?_eq_some {cs rest : List Char} {unit : Nat} (h : unit? cs = some (unit, rest)) :
    ∃ digits, IsCharacter ('\\' :: 'u' :: digits) ∧ cs = digits ++ rest := by
  unfold unit? at h
  split at h
  · rename_i hlength
    obtain ⟨value, hvalue, hpair⟩ := Option.map_eq_some_iff.mp h
    cases hpair
    refine ⟨cs.take 4, .unit ?_ (isSome_hexDigit? hvalue), (List.take_append_drop 4 cs).symm⟩
    rw [List.length_take]
    omega
  · cases h

theorem IsCharacter.single {cs : List Char} (h : IsCharacter cs) : IsCharacters cs := by
  rw [← List.append_nil cs]
  exact .cons h .nil

theorem escaped?_eq_some {cs rest : List Char} {c : Char} (h : escaped? cs = some (c, rest)) :
    ∃ taken, IsCharacters ('\\' :: taken) ∧ cs = taken ++ rest := by
  unfold escaped? at h
  cases hstrip : strip? ['u'] cs with
  | some after =>
    rw [hstrip] at h
    obtain ⟨⟨unit, after'⟩, hunit, hdecoded⟩ := Option.bind_eq_some_iff.mp h
    obtain ⟨digits, hdigits, hafter⟩ := unit?_eq_some hunit
    rw [strip?_eq_some_iff.mp hstrip, hafter]
    dsimp only at hdecoded
    split at hdecoded
    · obtain ⟨pair, hpair, hdecoded⟩ := Option.bind_eq_some_iff.mp hdecoded
      obtain ⟨⟨low, rest'⟩, hlow, hdecoded⟩ := Option.bind_eq_some_iff.mp hdecoded
      obtain ⟨digits', hdigits', hpair'⟩ := unit?_eq_some hlow
      obtain ⟨_, _, hdecoded⟩ := Option.bind_eq_some_iff.mp hdecoded
      obtain rfl : rest' = rest := congrArg Prod.snd (Option.some.inj hdecoded)
      rw [strip?_eq_some_iff.mp hpair, hpair']
      refine ⟨'u' :: digits ++ '\\' :: 'u' :: digits', .cons hdigits hdigits'.single, ?_⟩
      simp
    · obtain ⟨_, _, hdecoded⟩ := Option.bind_eq_some_iff.mp hdecoded
      cases hdecoded
      exact ⟨'u' :: digits, hdigits.single, rfl⟩
  | none =>
    rw [hstrip] at h
    cases cs with
    | nil => cases h
    | cons letter after =>
      obtain ⟨value, hvalue, hpair⟩ := Option.map_eq_some_iff.mp h
      cases hpair
      exact ⟨[letter], (IsCharacter.short (Option.isSome_of_eq_some hvalue)).single, rfl⟩

theorem character?_eq_some {cs rest : List Char} {c : Char} (h : character? cs = some (c, rest)) :
    ∃ taken, IsCharacters taken ∧ taken ≠ [] ∧ cs = taken ++ rest := by
  cases cs with
  | nil => cases h
  | cons first after =>
    rw [character?] at h
    split at h
    · rename_i hbackslash
      obtain ⟨taken, htaken, rfl⟩ := escaped?_eq_some h
      exact ⟨_, hbackslash ▸ htaken, by simp, by simp [hbackslash]⟩
    · split at h
      · cases h
      · rename_i hbackslash hplain
        cases h
        rw [not_or, Nat.not_lt] at hplain
        exact ⟨[c], (IsCharacter.plain hplain.1 hbackslash hplain.2).single, by simp, rfl⟩

theorem length_lt_of_character? {cs rest : List Char} {c : Char}
    (h : character? cs = some (c, rest)) : rest.length < cs.length := by
  obtain ⟨taken, _, hne, rfl⟩ := character?_eq_some h
  have hpos := List.length_pos_iff.mpr hne
  rw [List.length_append]
  omega

/-- The characters up to the closing quote, and the text after it. -/
def string? (cs : List Char) : Option (List Char × List Char) :=
  match strip? ['"'] cs with
  | some rest => some ([], rest)
  | none =>
    match h : character? cs with
    | none => none
    | some (c, rest) =>
      have : rest.length < cs.length := length_lt_of_character? h
      (string? rest).map fun (text, after) => (c :: text, after)
termination_by cs.length

theorem IsCharacters.append {cs more : List Char} (h : IsCharacters cs)
    (hmore : IsCharacters more) : IsCharacters (cs ++ more) := by
  induction h with
  | nil => exact hmore
  | cons hc _ ih =>
    rw [List.append_assoc]
    exact .cons hc ih

theorem string?_eq_some {cs text rest : List Char} (h : string? cs = some (text, rest)) :
    ∃ taken, IsCharacters taken ∧ cs = taken ++ '"' :: rest := by
  fun_induction string? cs generalizing text with
  | case1 cs after hclosed =>
    cases h
    exact ⟨[], .nil, by simpa using strip?_eq_some_iff.mp hclosed⟩
  | case2 => cases h
  | case3 cs _ c after hc _ ih =>
    obtain ⟨⟨more, rest'⟩, hmore, hpair⟩ := Option.map_eq_some_iff.mp h
    cases hpair
    obtain ⟨first, hfirst, _, rfl⟩ := character?_eq_some hc
    obtain ⟨taken, htaken, rfl⟩ := ih hmore
    exact ⟨first ++ taken, hfirst.append htaken, (List.append_assoc ..).symm⟩

/-! ### Numbers -/

/-- The sign in front of a text, and the text after it. -/
def sign (cs : List Char) : Bool × List Char :=
  match strip? ['-'] cs with
  | some rest => (true, rest)
  | none => (false, cs)

/-- The fraction of a number and the text after it. -/
def fraction? (cs : List Char) : Option (List Char × List Char) :=
  match strip? ['.'] cs with
  | none => some ([], cs)
  | some rest =>
    if rest.takeWhile Char.isDigit = [] then none
    else some (rest.takeWhile Char.isDigit, rest.dropWhile Char.isDigit)

/-- The sign in front of an exponent, which may be a plus too, and the text after it. -/
def exponentSign (cs : List Char) : Bool × List Char :=
  match strip? ['+'] cs with
  | some rest => (false, rest)
  | none => sign cs

/-- The exponent of a number and the text after it. -/
def exponent? (cs : List Char) : Option (Int × List Char) :=
  match (strip? ['e'] cs).or (strip? ['E'] cs) with
  | none => some (0, cs)
  | some rest =>
    let digits := (exponentSign rest).2.takeWhile Char.isDigit
    let n : Int := Nat.ofDigitChars 10 digits 0
    if digits = [] then none
    else some (if (exponentSign rest).1 then -n else n,
      (exponentSign rest).2.dropWhile Char.isDigit)

/-- The number in front of a text, and the text after it. -/
def number? (cs : List Char) : Option (Double × List Char) :=
  let whole := (sign cs).2.takeWhile Char.isDigit
  if whole ≠ [] ∧ (whole.head? = some '0' → whole = ['0']) then do
    let (fraction, rest) ← fraction? ((sign cs).2.dropWhile Char.isDigit)
    let (exponent, rest) ← exponent? rest
    let magnitude : ℚ :=
      Nat.ofDigitChars 10 (whole ++ fraction) 0 * 10 ^ (exponent - fraction.length)
    (Double.nearest? (sign cs).1 magnitude).map fun x => (x, rest)
  else none

theorem exists_sign (cs : List Char) :
    ∃ taken, (taken = [] ∨ taken = ['-']) ∧ cs = taken ++ (sign cs).2 := by
  unfold sign
  split
  · rename_i rest hstrip
    exact ⟨['-'], .inr rfl, strip?_eq_some_iff.mp hstrip⟩
  · exact ⟨[], .inl rfl, rfl⟩

theorem isDigits_takeWhile {cs : List Char} (h : cs.takeWhile Char.isDigit ≠ []) :
    IsDigits (cs.takeWhile Char.isDigit) :=
  ⟨h, fun _ hc => List.mem_takeWhile_imp hc⟩

theorem fraction?_eq_some {cs digits rest : List Char} (h : fraction? cs = some (digits, rest)) :
    ∃ taken, IsFraction taken ∧ cs = taken ++ rest := by
  unfold fraction? at h
  split at h
  · cases h
    exact ⟨[], .none, rfl⟩
  · rename_i after hpoint
    split at h
    · cases h
    · rename_i hdigits
      cases h
      refine ⟨_, .digits (isDigits_takeWhile hdigits), ?_⟩
      rw [strip?_eq_some_iff.mp hpoint, List.cons_append, List.cons_append,
        List.takeWhile_append_dropWhile, List.nil_append]

theorem exists_exponentSign (cs : List Char) :
    ∃ taken, (taken = [] ∨ taken = ['+'] ∨ taken = ['-']) ∧ cs = taken ++ (exponentSign cs).2 := by
  unfold exponentSign
  split
  · rename_i rest hstrip
    exact ⟨['+'], .inr (.inl rfl), strip?_eq_some_iff.mp hstrip⟩
  · obtain ⟨taken, htaken, hcs⟩ := exists_sign cs
    exact ⟨taken, htaken.imp_right .inr, hcs⟩

theorem exponent?_eq_some {cs rest : List Char} {e : Int} (h : exponent? cs = some (e, rest)) :
    ∃ taken, IsExponent taken ∧ cs = taken ++ rest := by
  unfold exponent? at h
  split at h
  · cases h
    exact ⟨[], .none, rfl⟩
  · rename_i after hstrip
    have hcs : ∃ letter, (letter = 'e' ∨ letter = 'E') ∧ cs = letter :: after := by
      rcases Option.or_eq_some_iff.mp hstrip with hstrip | ⟨_, hstrip⟩
      · exact ⟨'e', .inl rfl, strip?_eq_some_iff.mp hstrip⟩
      · exact ⟨'E', .inr rfl, strip?_eq_some_iff.mp hstrip⟩
    obtain ⟨letter, hletter, hcs⟩ := hcs
    obtain ⟨signs, hsigns, hafter⟩ := exists_exponentSign after
    dsimp only at h
    split at h
    · cases h
    · rename_i hdigits
      obtain ⟨_, rfl⟩ := Prod.mk.inj (Option.some.inj h)
      refine ⟨_, .digits hletter hsigns (isDigits_takeWhile hdigits), ?_⟩
      rw [hcs, List.cons_append, List.append_assoc, List.takeWhile_append_dropWhile, ← hafter]

theorem number?_eq_some {cs rest : List Char} {x : Double} (h : number? cs = some (x, rest)) :
    ∃ taken, IsNumber taken ∧ cs = taken ++ rest := by
  unfold number? at h
  dsimp only at h
  split at h
  · rename_i hwhole
    obtain ⟨⟨digits, after⟩, hfraction, h⟩ := Option.bind_eq_some_iff.mp h
    obtain ⟨⟨e, after'⟩, hexponent, h⟩ := Option.bind_eq_some_iff.mp h
    obtain ⟨y, _, hpair⟩ := Option.map_eq_some_iff.mp h
    obtain ⟨_, rfl⟩ := Prod.mk.inj hpair
    obtain ⟨signs, hsigns, hcs⟩ := exists_sign cs
    obtain ⟨fraction, hfraction, hrest⟩ := fraction?_eq_some hfraction
    obtain ⟨exponent, hexponent, hafter⟩ := exponent?_eq_some hexponent
    refine ⟨_, .mk hsigns ⟨isDigits_takeWhile hwhole.1, hwhole.2⟩ hfraction hexponent, ?_⟩
    calc cs
        = signs ++ (sign cs).2 := hcs
      _ = signs ++ ((sign cs).2.takeWhile Char.isDigit ++ (fraction ++ (exponent ++ after'))) := by
          rw [← hafter, ← hrest, List.takeWhile_append_dropWhile]
      _ = _ := by simp only [List.append_assoc]
  · cases h

/-! ### Values -/

mutual

/-- The value in front of a text, and the text after it. The text bounds the number of steps. -/
def value? : Nat → List Char → Option (Value × List Char)
  | 0, _ | _, [] => none
  | steps + 1, c :: cs =>
    if c = '"' then (string? cs).map fun (text, rest) => (.string (String.ofList text), rest)
    else if c = '[' then
      match strip? [']'] (skip cs) with
      | some rest => some (.array [], rest)
      | none => (items? steps cs).map fun (items, rest) => (.array items, rest)
    else if c = '\x7b' then
      match strip? ['\x7d'] (skip cs) with
      | some rest => some (.object [], rest)
      | none => (entries? steps cs).map fun (entries, rest) =>
          (.object (Entries.ofList entries), rest)
    else if c = 'n' then (strip? "ull".toList cs).map fun rest => (.null, rest)
    else if c = 't' then (strip? "rue".toList cs).map fun rest => (.boolean true, rest)
    else if c = 'f' then (strip? "alse".toList cs).map fun rest => (.boolean false, rest)
    else (number? (c :: cs)).map fun (x, rest) => (.number x, rest)

/-- The items up to the closing bracket, at least one, and the text after it. -/
def items? : Nat → List Char → Option (List Value × List Char)
  | 0, _ => none
  | steps + 1, cs => do
    let (item, rest) ← value? steps (skip cs)
    match strip? [','] (skip rest) with
    | some rest => (items? steps rest).map fun (more, rest) => (item :: more, rest)
    | none => (strip? [']'] (skip rest)).map fun rest => ([item], rest)

/-- The entries up to the closing brace, at least one, and the text after it. -/
def entries? : Nat → List Char → Option (List (String × Value) × List Char)
  | 0, _ => none
  | steps + 1, cs => do
    let rest ← strip? ['"'] (skip cs)
    let (key, rest) ← string? rest
    let rest ← strip? [':'] (skip rest)
    let (item, rest) ← value? steps (skip rest)
    let entry := (String.ofList key, item)
    match strip? [','] (skip rest) with
    | some rest => (entries? steps rest).map fun (more, rest) => (entry :: more, rest)
    | none => (strip? ['\x7d'] (skip rest)).map fun rest => ([entry], rest)

end

/-- What a bounded number of steps reads is as the grammar has it. -/
structure Grammatical (steps : Nat) : Prop where
  value {cs rest : List Char} {v : Value} (h : value? steps cs = some (v, rest)) :
    ∃ taken, IsValue taken ∧ cs = taken ++ rest
  items {cs rest : List Char} {items : List Value} (h : items? steps cs = some (items, rest)) :
    ∃ taken, IsElements taken ∧ cs = taken ++ ']' :: rest
  entries {cs rest : List Char} {entries : List (String × Value)}
    (h : entries? steps cs = some (entries, rest)) :
    ∃ taken, IsMembers taken ∧ cs = taken ++ '\x7d' :: rest

theorem Grammatical.value_succ {steps : Nat} {cs rest : List Char} {v : Value}
    (hsteps : Grammatical steps) (h : value? (steps + 1) cs = some (v, rest)) :
    ∃ taken, IsValue taken ∧ cs = taken ++ rest := by
  cases cs with
  | nil => cases h
  | cons c cs =>
    unfold value? at h
    split_ifs at h with hquote hbracket hbrace hn ht hf
    · obtain ⟨⟨text, after⟩, htext, hpair⟩ := Option.map_eq_some_iff.mp h
      cases hpair
      obtain ⟨taken, htaken, rfl⟩ := string?_eq_some htext
      exact ⟨_, .string (.mk htaken), by simp [hquote]⟩
    · obtain ⟨blanks, hblanks, hcs⟩ := exists_blanks cs
      split at h
      · rename_i after hclosed
        cases h
        refine ⟨_, .emptyArray hblanks, ?_⟩
        rw [hbracket, hcs, strip?_eq_some_iff.mp hclosed]
        simp
      · obtain ⟨⟨items, after⟩, hitems, hpair⟩ := Option.map_eq_some_iff.mp h
        cases hpair
        obtain ⟨taken, htaken, rfl⟩ := hsteps.items hitems
        exact ⟨_, .array htaken, by simp [hbracket]⟩
    · obtain ⟨blanks, hblanks, hcs⟩ := exists_blanks cs
      split at h
      · rename_i after hclosed
        cases h
        refine ⟨_, .emptyObject hblanks, ?_⟩
        rw [hbrace, hcs, strip?_eq_some_iff.mp hclosed]
        simp
      · obtain ⟨⟨entries, after⟩, hentries, hpair⟩ := Option.map_eq_some_iff.mp h
        cases hpair
        obtain ⟨taken, htaken, rfl⟩ := hsteps.entries hentries
        exact ⟨_, .object htaken, by simp [hbrace]⟩
    · obtain ⟨after, hafter, hpair⟩ := Option.map_eq_some_iff.mp h
      cases hpair
      exact ⟨_, .null, by rw [hn, strip?_eq_some_iff.mp hafter]; rfl⟩
    · obtain ⟨after, hafter, hpair⟩ := Option.map_eq_some_iff.mp h
      cases hpair
      exact ⟨_, .true, by rw [ht, strip?_eq_some_iff.mp hafter]; rfl⟩
    · obtain ⟨after, hafter, hpair⟩ := Option.map_eq_some_iff.mp h
      cases hpair
      exact ⟨_, .false, by rw [hf, strip?_eq_some_iff.mp hafter]; rfl⟩
    · obtain ⟨⟨x, after⟩, hx, hpair⟩ := Option.map_eq_some_iff.mp h
      cases hpair
      obtain ⟨taken, htaken, hcs⟩ := number?_eq_some hx
      exact ⟨taken, .number htaken, hcs⟩

/-- A value between blanks, up to what is read next. -/
theorem Grammatical.element {steps : Nat} {cs rest word after : List Char} {v : Value}
    (hsteps : Grammatical steps) (hvalue : value? steps (skip cs) = some (v, rest))
    (hword : strip? word (skip rest) = some after) :
    ∃ taken, IsElement taken ∧ cs = taken ++ (word ++ after) := by
  obtain ⟨blanks, hblanks, hcs⟩ := exists_blanks cs
  obtain ⟨blanks', hblanks', hrest⟩ := exists_blanks rest
  obtain ⟨taken, htaken, hskip⟩ := hsteps.value hvalue
  refine ⟨_, .mk hblanks htaken hblanks', ?_⟩
  rw [hcs, hskip, hrest, strip?_eq_some_iff.mp hword]
  simp only [List.append_assoc]

theorem Grammatical.items_succ {steps : Nat} {cs rest : List Char} {items : List Value}
    (hsteps : Grammatical steps) (h : items? (steps + 1) cs = some (items, rest)) :
    ∃ taken, IsElements taken ∧ cs = taken ++ ']' :: rest := by
  unfold items? at h
  obtain ⟨⟨item, after⟩, hitem, h⟩ := Option.bind_eq_some_iff.mp h
  dsimp only at h
  split at h
  · rename_i after' hcomma
    obtain ⟨⟨more, rest'⟩, hmore, hpair⟩ := Option.map_eq_some_iff.mp h
    cases hpair
    obtain ⟨taken, htaken, hcs⟩ := hsteps.element hitem hcomma
    obtain ⟨others, hothers, rfl⟩ := hsteps.items hmore
    exact ⟨_, .more htaken hothers, by simp [hcs]⟩
  · obtain ⟨rest', hclosed, hpair⟩ := Option.map_eq_some_iff.mp h
    cases hpair
    obtain ⟨taken, htaken, hcs⟩ := hsteps.element hitem hclosed
    exact ⟨taken, .one htaken, hcs⟩

theorem Grammatical.entries_succ {steps : Nat} {cs rest : List Char}
    {entries : List (String × Value)} (hsteps : Grammatical steps)
    (h : entries? (steps + 1) cs = some (entries, rest)) :
    ∃ taken, IsMembers taken ∧ cs = taken ++ '\x7d' :: rest := by
  unfold entries? at h
  obtain ⟨opened, hopened, h⟩ := Option.bind_eq_some_iff.mp h
  obtain ⟨⟨key, keyed⟩, hkey, h⟩ := Option.bind_eq_some_iff.mp h
  obtain ⟨colon, hcolon, h⟩ := Option.bind_eq_some_iff.mp h
  obtain ⟨⟨item, after⟩, hitem, h⟩ := Option.bind_eq_some_iff.mp h
  dsimp only at h
  obtain ⟨blanks, hblanks, hcs⟩ := exists_blanks cs
  obtain ⟨blanks', hblanks', hkeyed⟩ := exists_blanks keyed
  obtain ⟨text, htext, htaken⟩ := string?_eq_some hkey
  have hopening : cs = blanks ++ ('"' :: text ++ ['"']) ++ blanks' ++ ':' :: colon := by
    rw [hcs, strip?_eq_some_iff.mp hopened, htaken, hkeyed, strip?_eq_some_iff.mp hcolon]
    simp
  split at h
  · rename_i after' hcomma
    obtain ⟨⟨more, rest'⟩, hmore, hpair⟩ := Option.map_eq_some_iff.mp h
    cases hpair
    obtain ⟨taken, htaken, hcolon⟩ := hsteps.element hitem hcomma
    obtain ⟨others, hothers, rfl⟩ := hsteps.entries hmore
    exact ⟨_, .more (.mk hblanks (.mk htext) hblanks' htaken) hothers, by simp [hopening, hcolon]⟩
  · obtain ⟨rest', hclosed, hpair⟩ := Option.map_eq_some_iff.mp h
    cases hpair
    obtain ⟨taken, htaken, hcolon⟩ := hsteps.element hitem hclosed
    exact ⟨_, .one (.mk hblanks (.mk htext) hblanks' htaken), by simp [hopening, hcolon]⟩

theorem grammatical (steps : Nat) : Grammatical steps := by
  induction steps with
  | zero => constructor <;> intros <;> contradiction
  | succ steps ih => exact ⟨ih.value_succ, ih.items_succ, ih.entries_succ⟩

/-- The value that a document denotes. -/
def parse (text : String) : Option Value := do
  let (value, rest) ← value? text.length (skip text.toList)
  if skip rest = [] then some value else none

/-- The reader takes documents only. -/
theorem isElement_of_parse {text : String} {v : Value} (h : parse text = some v) :
    IsElement text.toList := by
  obtain ⟨⟨value, rest⟩, hvalue, h⟩ := Option.bind_eq_some_iff.mp h
  dsimp only at h
  split at h
  · rename_i hrest
    have hend : strip? [] (skip rest) = some [] := congrArg some hrest
    obtain ⟨taken, htaken, htext⟩ := (grammatical _).element hvalue hend
    rw [htext]
    simpa using htaken
  · cases h

end FlatSyntax.Json
