import EdgeCausal.Encoding.Json

/-!
# `Encoding.JsonRead` — reading JSON text back

`loads` is the reader of JSON documents; a number is kept as it is written. `Reads` says that a text stands for a
value wherever it occurs; it holds of what `string`, `array` and `object` write whenever it holds of the parts
(`Reads.array`, `Reads.object`), so a writer built from them has a reader by the same construction, and no two values
share a text (`Reads.unique`).
-/

namespace Lib.Json

inductive Value where
  | null
  | bool (b : Bool)
  | number (digits : List Char)
  | string (s : String)
  | array (items : List Value)
  | object (members : List (String × Value))

def blank (c : Char) : Bool := c = ' ' ∨ c = '\t' ∨ c = '\n' ∨ c = '\r'

/-- The text without the blanks in front. -/
def skip (cs : List Char) : List Char := cs.dropWhile blank

/-! ## Strings -/

def hexValue (c : Char) : Option ℕ :=
  if '0' ≤ c ∧ c ≤ '9' then some (c.toNat - 48)
  else if 'a' ≤ c ∧ c ≤ 'f' then some (c.toNat - 87)
  else if 'A' ≤ c ∧ c ≤ 'F' then some (c.toNat - 55)
  else none

/-- The number four hex digits stand for. -/
def codeUnit (a b c d : Char) : Option ℕ :=
  match hexValue a, hexValue b, hexValue c, hexValue d with
  | some a, some b, some c, some d => some (4096 * a + 256 * b + 16 * c + d)
  | _, _, _, _ => none

/-- What stands after a backslash. -/
def unescape (c : Char) : Option Char :=
  if c = '"' ∨ c = '\\' ∨ c = '/' then some c
  else if c = 'b' then some (Char.ofNat 8)
  else if c = 'f' then some (Char.ofNat 12)
  else if c = 'n' then some '\n'
  else if c = 'r' then some '\r'
  else if c = 't' then some '\t'
  else none

/-- The character of a surrogate pair. -/
def paired (hi lo : ℕ) : Char := Char.ofNat (65536 + (hi - 55296) * 1024 + (lo - 56320))

/-- A string up to its closing quote, and what follows it. A surrogate that stands alone is no character. -/
def scan : List Char → Option (List Char × List Char)
  | '"' :: rest => some ([], rest)
  | '\\' :: 'u' :: a :: b :: c :: d :: '\\' :: 'u' :: e :: f :: g :: h :: rest =>
      match codeUnit a b c d with
      | none => none
      | some hi =>
          if 55296 ≤ hi ∧ hi < 56320 then
            match codeUnit e f g h with
            | none => none
            | some lo =>
                if 56320 ≤ lo ∧ lo < 57344 then (scan rest).map fun p => (paired hi lo :: p.1, p.2) else none
          else if 56320 ≤ hi ∧ hi < 57344 then none
          else (scan ('\\' :: 'u' :: e :: f :: g :: h :: rest)).map fun p => (Char.ofNat hi :: p.1, p.2)
  | '\\' :: 'u' :: a :: b :: c :: d :: rest =>
      match codeUnit a b c d with
      | none => none
      | some n => if 55296 ≤ n ∧ n < 57344 then none else (scan rest).map fun p => (Char.ofNat n :: p.1, p.2)
  | '\\' :: c :: rest =>
      match unescape c with
      | none => none
      | some c => (scan rest).map fun p => (c :: p.1, p.2)
  | c :: rest => if c.toNat < 32 then none else (scan rest).map fun p => (c :: p.1, p.2)
  | [] => none

/-! ## Numbers -/

section Number
variable (cs : List Char)

/-- Decimal digits, one at least, and what follows them. -/
def digits : Option (List Char × List Char) :=
  if cs.takeWhile Char.isDigit = [] then none else some (cs.takeWhile Char.isDigit, cs.dropWhile Char.isDigit)

def fraction : Option (List Char × List Char) :=
  match cs with
  | '.' :: rest => (digits rest).map fun p => ('.' :: p.1, p.2)
  | _ => none

def exponent : Option (List Char × List Char) :=
  match cs with
  | c :: s :: rest =>
      if c ≠ 'e' ∧ c ≠ 'E' then none
      else if s = '+' ∨ s = '-' then (digits rest).map fun p => (c :: s :: p.1, p.2)
      else (digits (s :: rest)).map fun p => (c :: p.1, p.2)
  | _ => none

/-- A whole number has no digit after a leading 0. -/
def whole : Option (List Char × List Char) :=
  match cs with
  | '0' :: rest => some (['0'], rest)
  | _ => digits cs

/-- A number without its sign. -/
def unsigned : Option (List Char × List Char) :=
  (whole cs).map fun w =>
    let f := (fraction w.2).getD ([], w.2)
    let e := (exponent f.2).getD ([], f.2)
    (w.1 ++ f.1 ++ e.1, e.2)

def number : Option (List Char × List Char) :=
  match cs with
  | '-' :: rest => (unsigned rest).map fun p => ('-' :: p.1, p.2)
  | _ => unsigned cs

end Number

/-- The words that stand for themselves. -/
def words : List (List Char × Value) :=
  [(['n', 'u', 'l', 'l'], .null), (['t', 'r', 'u', 'e'], .bool true), (['f', 'a', 'l', 's', 'e'], .bool false)] ++
    ([['N', 'a', 'N'], ['I', 'n', 'f', 'i', 'n', 'i', 't', 'y'], ['-', 'I', 'n', 'f', 'i', 'n', 'i', 't', 'y']].map
      fun w => (w, .number w))

/-- A word or a number at the front of a text, and what follows it. -/
def scalar (cs : List Char) : Option (Value × List Char) :=
  match words.find? fun w => w.1.isPrefixOf cs with
  | some w => some (w.2, cs.drop w.1.length)
  | none => (number cs).map fun p => (.number p.1, p.2)

/-! ## Documents -/

mutual

/-- A value at the front of a text, and what follows it. The number bounds the depth and the length. -/
def value : ℕ → List Char → Option (Value × List Char)
  | 0, _ => none
  | n + 1, cs =>
      match cs with
      | '"' :: rest => (scan rest).map fun p => (.string (String.ofList p.1), p.2)
      | '[' :: rest =>
          match skip rest with
          | ']' :: rest => some (.array [], rest)
          | rest => (items n rest).map fun p => (.array p.1, p.2)
      | '\x7b' :: rest =>
          match skip rest with
          | '\x7d' :: rest => some (.object [], rest)
          | rest => (members n rest).map fun p => (.object p.1, p.2)
      | _ => scalar cs

/-- The items of an array up to its end. -/
def items : ℕ → List Char → Option (List Value × List Char)
  | 0, _ => none
  | n + 1, cs =>
      match value n cs with
      | none => none
      | some (v, rest) =>
          match skip rest with
          | ',' :: rest => (items n (skip rest)).map fun p => (v :: p.1, p.2)
          | ']' :: rest => some ([v], rest)
          | _ => none

/-- The members of an object up to its end. -/
def members : ℕ → List Char → Option (List (String × Value) × List Char)
  | 0, _ => none
  | n + 1, cs =>
      match cs with
      | '"' :: rest =>
          match scan rest with
          | none => none
          | some (key, rest) =>
              match skip rest with
              | ':' :: rest =>
                  match value n (skip rest) with
                  | none => none
                  | some (v, rest) =>
                      match skip rest with
                      | ',' :: rest => (members n (skip rest)).map fun p => ((String.ofList key, v) :: p.1, p.2)
                      | '\x7d' :: rest => some ([(String.ofList key, v)], rest)
                      | _ => none
              | _ => none
      | _ => none

end

/-- `json.loads`. -/
def loads (text : List Char) : Option Value :=
  match value text.length (skip text) with
  | some (v, rest) => if skip rest = [] then some v else none
  | none => none

/-- A member of an object; of two of one name the later counts. -/
def Value.get? (v : Value) (key : String) : Option Value :=
  match v with
  | .object members => ((members.reverse.find? fun m => m.1 = key)).map Prod.snd
  | _ => none

/-! ## Reading what was written -/

theorem hexValue_digitChar {k : ℕ} (hk : k < 16) : hexValue (Nat.digitChar k) = some k := by
  revert k
  decide

theorem codeUnit_hex4 {n : ℕ} (hn : n < 65536) : codeUnit (Nat.digitChar (n / 4096 % 16))
    (Nat.digitChar (n / 256 % 16)) (Nat.digitChar (n / 16 % 16)) (Nat.digitChar (n % 16)) = some n := by
  unfold codeUnit
  rw [hexValue_digitChar (Nat.mod_lt _ (by omega)), hexValue_digitChar (Nat.mod_lt _ (by omega)),
    hexValue_digitChar (Nat.mod_lt _ (by omega)), hexValue_digitChar (Nat.mod_lt _ (by omega))]
  simp only [Option.some.injEq]
  omega

/-- A character is no surrogate. -/
theorem toNat_valid (c : Char) : c.toNat < 55296 ∨ (57343 < c.toNat ∧ c.toNat < 1114112) := c.valid

theorem scan_plain {c : Char} (hquote : c ≠ '"') (hslash : c ≠ '\\') (hlow : 32 ≤ c.toNat) (rest : List Char) :
    scan (c :: rest) = (scan rest).map fun p => (c :: p.1, p.2) := by
  rw [scan.eq_def]
  split
  · rename_i heq
    exact absurd (List.cons.inj heq).1 hquote
  · rename_i heq
    exact absurd (List.cons.inj heq).1 hslash
  · rename_i heq
    exact absurd (List.cons.inj heq).1 hslash
  · rename_i heq
    exact absurd (List.cons.inj heq).1 hslash
  · rename_i heq
    obtain ⟨rfl, rfl⟩ := List.cons.inj heq
    exact if_neg (by omega)
  · rename_i heq
    exact absurd heq (by simp)

theorem scan_short {c c' : Char} (hu : c ≠ 'u') (hc : unescape c = some c') (rest : List Char) :
    scan ('\\' :: c :: rest) = (scan rest).map fun p => (c' :: p.1, p.2) := by
  rw [scan.eq_def]
  split
  · rename_i heq
    exact absurd (List.cons.inj heq).1 (by decide)
  · rename_i heq
    exact absurd (List.cons.inj (List.cons.inj heq).2).1 hu
  · rename_i heq
    exact absurd (List.cons.inj (List.cons.inj heq).2).1 hu
  · rename_i heq
    obtain ⟨rfl, rfl⟩ := List.cons.inj (List.cons.inj heq).2
    rw [hc]
  · rename_i hnone heq
    obtain ⟨rfl, rfl⟩ := List.cons.inj heq
    exact (hnone _ _ rfl rfl).elim
  · rename_i heq
    exact absurd heq (by simp)

theorem scan_unit {a b c d : Char} {n : ℕ} (hn : codeUnit a b c d = some n) (hlone : n < 55296 ∨ 57343 < n)
    (rest : List Char) : scan ('\\' :: 'u' :: a :: b :: c :: d :: rest)
      = (scan rest).map fun p => (Char.ofNat n :: p.1, p.2) := by
  by_cases hnext : ∃ e f g h rest', rest = '\\' :: 'u' :: e :: f :: g :: h :: rest'
  · obtain ⟨e, f, g, h, rest', rfl⟩ := hnext
    rw [scan, hn]
    dsimp only
    rw [if_neg (by omega), if_neg (by omega)]
  · rw [scan, hn]
    · dsimp only
      rw [if_neg (by omega)]
    · intro e f g h rest' heq
      exact hnext ⟨e, f, g, h, rest', heq⟩

theorem scan_pair {a b c d e f g h : Char} {hi lo : ℕ} (hhi : codeUnit a b c d = some hi)
    (hlo : codeUnit e f g h = some lo) (hhigh : 55296 ≤ hi ∧ hi < 56320) (hlow : 56320 ≤ lo ∧ lo < 57344)
    (rest : List Char) : scan ('\\' :: 'u' :: a :: b :: c :: d :: '\\' :: 'u' :: e :: f :: g :: h :: rest)
      = (scan rest).map fun p => (paired hi lo :: p.1, p.2) := by
  rw [scan, hhi]
  dsimp only
  rw [if_pos hhigh, hlo]
  dsimp only
  rw [if_pos hlow]

/-- **Step.** An escaped character is scanned as itself. -/
theorem scan_escape (c : Char) (rest : List Char) :
    scan (escape c ++ rest) = (scan rest).map fun p => (c :: p.1, p.2) := by
  have hvalid := toNat_valid c
  have hself : Char.ofNat c.toNat = c := Char.ofNat_toNat c
  unfold escape
  split
  · rename_i hc
    subst hc
    exact scan_short (by decide) rfl rest
  split
  · rename_i hc
    subst hc
    exact scan_short (by decide) rfl rest
  split
  · rename_i hc
    subst hc
    exact scan_short (by decide) rfl rest
  split
  · rename_i hc
    subst hc
    exact scan_short (by decide) rfl rest
  split
  · rename_i hc
    subst hc
    exact scan_short (by decide) rfl rest
  split
  · rename_i hc
    rw [hc] at hself
    subst hself
    exact scan_short (by decide) rfl rest
  split
  · rename_i hc
    rw [hc] at hself
    subst hself
    exact scan_short (by decide) rfl rest
  split
  · rename_i hquote hslash _ _ _ _ _ hprint
    exact scan_plain hquote hslash hprint.1 rest
  split
  · rename_i hlow
    have hscan := scan_unit (codeUnit_hex4 hlow) (by omega) rest
    rw [hself] at hscan
    exact hscan
  · -- above the basic plane: the surrogates make the character again
    have hpair : paired (55296 + (c.toNat - 65536) / 1024) (56320 + (c.toNat - 65536) % 1024) = c := by
      unfold paired
      rw [show 65536 + (55296 + (c.toNat - 65536) / 1024 - 55296) * 1024
        + (56320 + (c.toNat - 65536) % 1024 - 56320) = c.toNat by omega]
      exact hself
    have hscan := scan_pair (codeUnit_hex4 (show 55296 + (c.toNat - 65536) / 1024 < 65536 by omega))
      (codeUnit_hex4 (show 56320 + (c.toNat - 65536) % 1024 < 65536 by omega)) (by omega) (by omega) rest
    rw [hpair] at hscan
    exact hscan

/-- A string is scanned up to its own closing quote. -/
theorem scan_string (s : String) (rest : List Char) :
    scan (s.toList.flatMap escape ++ '"' :: rest) = some (s.toList, rest) := by
  induction s.toList with
  | nil => rfl
  | cons c cs ih =>
      rw [List.flatMap_cons, List.append_assoc, scan_escape, ih]
      rfl

/-- The text stands for the value, whatever follows it. -/
structure Reads (text : List Char) (v : Value) : Prop where
  starts : ∃ c rest, text = c :: rest ∧ blank c = false ∧ c ≠ ']'
  reads : ∀ n rest, text.length ≤ n → value n (text ++ rest) = some (v, rest)

section Reads
variable {text rest : List Char} {v v' : Value}

theorem Reads.skip (h : Reads text v) (rest : List Char) : skip (text ++ rest) = text ++ rest := by
  obtain ⟨c, cs, rfl, hblank, -⟩ := h.starts
  unfold Json.skip
  rw [List.cons_append, List.dropWhile_cons_of_neg (by simp [hblank])]

theorem Reads.length_pos (h : Reads text v) : 0 < text.length := by
  obtain ⟨c, cs, rfl, -, -⟩ := h.starts
  simp

theorem Reads.unique (h : Reads text v) (h' : Reads text v') : v = v' := by
  have heq := (h.reads _ [] (Nat.le_refl _)).symm.trans (h'.reads _ [] (Nat.le_refl _))
  exact (Prod.mk.inj (Option.some.inj heq)).1

/-- A text that stands for a value is a document of it. -/
theorem Reads.loads (h : Reads text v) : loads text = some v := by
  have hskip := h.skip []
  have hread := h.reads _ [] (Nat.le_refl _)
  rw [List.append_nil] at hskip hread
  unfold Json.loads
  rw [hskip, hread]
  rfl

theorem reads_null : Reads ['n', 'u', 'l', 'l'] .null := by
  refine ⟨⟨'n', _, rfl, by decide, by decide⟩, ?_⟩
  intro n rest hn
  obtain ⟨n, rfl⟩ : ∃ m, n = m + 1 := ⟨n - 1, by simp at hn; omega⟩
  rfl

theorem reads_string (s : String) : Reads (string s) (.string s) := by
  have htext : string s = '"' :: (s.toList.flatMap escape ++ ['"']) := rfl
  rw [htext]
  refine ⟨⟨'"', _, rfl, by decide, by decide⟩, ?_⟩
  intro n rest hn
  obtain ⟨n, rfl⟩ : ∃ m, n = m + 1 := ⟨n - 1, by simp at hn; omega⟩
  rw [List.cons_append, List.append_assoc, List.singleton_append]
  show (scan _).map _ = _
  rw [scan_string]
  simp

theorem separated_cons_cons (t t' : List Char) (ts : List (List Char)) :
    separated (t :: t' :: ts) = t ++ ',' :: separated (t' :: ts) := by
  simp [separated, List.intercalate]

theorem skip_of_not_blank {c : Char} (hc : blank c = false) (cs : List Char) : Json.skip (c :: cs) = c :: cs := by
  unfold Json.skip
  rw [List.dropWhile_cons_of_neg (by simp [hc])]

/-- The first of the items is in front. -/
theorem separated_starts (text : List Char) (texts : List (List Char)) :
    ∃ more, separated (text :: texts) = text ++ more := by
  cases texts with
  | nil => exact ⟨[], by simp [separated, List.intercalate]⟩
  | cons t ts => exact ⟨_, separated_cons_cons text t ts⟩

/-- **Step.** Items with commas between them are read one after the other. -/
theorem items_separated {texts : List (List Char)} {vs : List Value} (h : List.Forall₂ Reads texts vs)
    (hne : texts ≠ [])
    {n : ℕ} (hn : (separated texts).length < n) (rest : List Char) :
    items n (separated texts ++ ']' :: rest) = some (vs, rest) := by
  induction h generalizing n with
  | nil => exact absurd rfl hne
  | @cons t v ts vs ht hts ih =>
      obtain ⟨n, rfl⟩ : ∃ m, n = m + 1 := ⟨n - 1, by omega⟩
      cases hts with
      | nil =>
          have htext : separated [t] = t := by simp [separated, List.intercalate]
          rw [htext] at hn ⊢
          unfold items
          rw [ht.reads n _ (by omega)]
          dsimp only
          rw [skip_of_not_blank (by decide)]
          rfl
      | @cons t' v' ts vs ht' hts =>
          rw [separated_cons_cons, List.length_append, List.length_cons] at hn
          rw [separated_cons_cons, List.append_assoc, List.cons_append]
          have hrest := ih (by simp) (n := n) (by omega)
          obtain ⟨more, hmore⟩ := separated_starts t' ts
          unfold items
          rw [ht.reads n _ (by omega)]
          dsimp only
          rw [skip_of_not_blank (by decide)]
          show (items n (Json.skip (separated (t' :: ts) ++ _))).map _ = _
          rw [hmore, List.append_assoc, ht'.skip, ← List.append_assoc, ← hmore, hrest]
          rfl

theorem Reads.array {texts : List (List Char)} {vs : List Value} (h : List.Forall₂ Reads texts vs) :
    Reads (array texts) (.array vs) := by
  have htext : Json.array texts = '[' :: (separated texts ++ [']']) := rfl
  rw [htext]
  refine ⟨⟨'[', _, rfl, by decide, by decide⟩, ?_⟩
  intro n rest hn
  obtain ⟨n, rfl⟩ : ∃ m, n = m + 1 := ⟨n - 1, by simp at hn; omega⟩
  rw [List.cons_append, List.append_assoc, List.singleton_append]
  rw [List.length_cons, List.length_append, List.length_singleton] at hn
  cases h with
  | nil => rfl
  | @cons t v ts vs ht hts =>
      have hitems := items_separated (.cons ht hts) (by simp) (n := n) (by omega) rest
      obtain ⟨more, hmore⟩ := separated_starts t ts
      have hskip : Json.skip (separated (t :: ts) ++ ']' :: rest) = separated (t :: ts) ++ ']' :: rest := by
        rw [hmore, List.append_assoc, ht.skip]
      simp only [value, hskip]
      split
      · -- the first item does not begin with the closing bracket
        rename_i heq
        obtain ⟨c, cs, rfl, -, hc⟩ := ht.starts
        rw [hmore] at heq
        exact absurd (List.cons.inj heq).1 hc
      · rw [hitems]
        rfl

/-- A member with its name, and what it reads as. -/
structure MemberReads (m : String × List Char) (v : String × Value) : Prop where
  name : m.1 = v.1
  reads : Reads m.2 v.2

/-- The text of a member. -/
def member (m : String × List Char) : List Char := string m.1 ++ [':'] ++ m.2

theorem member_eq (m : String × List Char) : member m = '"' :: (m.1.toList.flatMap escape ++ '"' :: ':' :: m.2) := by
  unfold member string
  simp

/-- A member at the front is read up to its value. -/
theorem members_member {m : String × List Char} {v : String × Value} (h : MemberReads m v) {n : ℕ}
    (hn : (member m).length ≤ n) (rest : List Char) :
    members (n + 1) (member m ++ rest) = match Json.skip rest with
      | ',' :: rest => (members n (Json.skip rest)).map fun p => (v :: p.1, p.2)
      | '\x7d' :: rest => some ([v], rest)
      | _ => none := by
  obtain ⟨key, text⟩ := m
  obtain ⟨key', v⟩ := v
  obtain ⟨rfl, hread⟩ : key = key' ∧ Reads text v := ⟨h.name, h.reads⟩
  rw [member_eq] at hn ⊢
  simp only [List.length_cons, List.length_append] at hn
  rw [List.cons_append, List.append_assoc, List.cons_append, List.cons_append]
  simp only [members, scan_string, skip_of_not_blank (show blank ':' = false by decide), hread.skip]
  rw [hread.reads n rest (by omega)]
  simp only [String.ofList_toList]

/-- **Step.** Members with commas between them are read one after the other. -/
theorem members_separated {ms : List (String × List Char)} {vs : List (String × Value)}
    (h : List.Forall₂ MemberReads ms vs) (hne : ms ≠ []) {n : ℕ} (hn : (separated (ms.map member)).length < n)
    (rest : List Char) : members n (separated (ms.map member) ++ '\x7d' :: rest) = some (vs, rest) := by
  induction h generalizing n with
  | nil => exact absurd rfl hne
  | @cons m v ms vs hm hms ih =>
      obtain ⟨n, rfl⟩ : ∃ k, n = k + 1 := ⟨n - 1, by omega⟩
      cases hms with
      | nil =>
          have htext : separated ([m].map member) = member m := by simp [separated, List.intercalate]
          rw [htext] at hn ⊢
          rw [members_member hm (by omega), skip_of_not_blank (by decide)]
          rfl
      | @cons m' v' ms vs hm' hms =>
          simp only [List.map_cons] at hn ih ⊢
          rw [separated_cons_cons, List.length_append, List.length_cons] at hn
          rw [separated_cons_cons, List.append_assoc, List.cons_append, members_member hm (by omega),
            skip_of_not_blank (by decide)]
          have hrest := ih (by simp) (n := n) (by omega)
          obtain ⟨more, hmore⟩ := separated_starts (member m') (ms.map member)
          have hskip : Json.skip (separated (member m' :: ms.map member) ++ '\x7d' :: rest)
              = separated (member m' :: ms.map member) ++ '\x7d' :: rest := by
            rw [hmore, member_eq]
            exact skip_of_not_blank (by decide) _
          show (members n (Json.skip (separated (member m' :: ms.map member) ++ _))).map _ = _
          rw [hskip, hrest]
          rfl

theorem Reads.object {ms : List (String × List Char)} {vs : List (String × Value)}
    (h : List.Forall₂ MemberReads ms vs) : Reads (object ms) (.object vs) := by
  have htext : Json.object ms = '\x7b' :: (separated (ms.map member) ++ ['\x7d']) := rfl
  rw [htext]
  refine ⟨⟨'\x7b', _, rfl, by decide, by decide⟩, ?_⟩
  intro n rest hn
  obtain ⟨n, rfl⟩ : ∃ m, n = m + 1 := ⟨n - 1, by simp at hn; omega⟩
  rw [List.cons_append, List.append_assoc, List.singleton_append]
  rw [List.length_cons, List.length_append, List.length_singleton] at hn
  cases h with
  | nil => rfl
  | @cons m v ms vs hm hms =>
      have hmembers := members_separated (.cons hm hms) (by simp) (n := n) (by omega) rest
      obtain ⟨more, hmore⟩ := separated_starts (member m) (ms.map member)
      have hfirst : separated ((m :: ms).map member) ++ '\x7d' :: rest
          = '"' :: (m.1.toList.flatMap escape ++ '"' :: ':' :: m.2 ++ more ++ '\x7d' :: rest) := by
        rw [List.map_cons, hmore, member_eq]
        rfl
      have hskip : Json.skip (separated ((m :: ms).map member) ++ '\x7d' :: rest)
          = separated ((m :: ms).map member) ++ '\x7d' :: rest := by
        rw [hfirst]
        exact skip_of_not_blank (by decide) _
      simp only [value, hskip]
      split
      · rename_i heq
        rw [hfirst] at heq
        exact absurd (List.cons.inj heq).1 (by decide)
      · rw [hmembers]
        rfl

end Reads

end Lib.Json
