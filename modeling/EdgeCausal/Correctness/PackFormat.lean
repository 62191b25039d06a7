import EdgeCausal.Api.Pack
import EdgeCausal.Collections.Dict

/-!
# `Correctness.PackFormat` — the pack that was printed is the pack that is read

A pack file is a list of lines: section headers, settings, entries, and noise. What a line does to the reader is
settled by its content, which neither its indentation, its padding nor a comment after it changes
(`packLine_text`); so the reader goes through a printed pack entry by entry and ends with exactly what was printed.
-/

namespace EdgeCausal.Api

open Lib

/-! ## Printed lines -/

/-- What may follow the content of a line: spaces, and a comment after one more. -/
structure Tail where
  pad : ℕ
  comment : Option (List Char)

def Tail.text (t : Tail) : List Char :=
  List.replicate t.pad ' ' ++ match t.comment with
    | none => []
    | some c => ' ' :: '#' :: c

/-- A line of a pack file. -/
inductive Line where
  | noise (text : List Char)
  | header (sec : PackSection) (tail : Tail)
  | interval (gap : ℕ) (z : ℤ) (tail : Tail)
  | window (gap : ℕ) (z : ℤ) (tail : Tail)
  | entry (sec : PackSection) (indent gap : ℕ) (key value : String) (tail : Tail)

/-- A whole number in decimal. -/
def intText (z : ℤ) : List Char := (toString z).toList

/-- A line with a name before its first colon. -/
def named (indent : ℕ) (name rest : List Char) (tail : Tail) : List Char :=
  List.replicate indent ' ' ++ (name ++ ':' :: rest) ++ tail.text

def Line.text : Line → List Char
  | .noise text => text
  | .header .queries tail => named 0 "queries".toList [] tail
  | .header .thresholds tail => named 0 "thresholds".toList [] tail
  | .interval gap z tail => named 0 "interval_s".toList (List.replicate gap ' ' ++ intText z) tail
  | .window gap z tail => named 0 "window_min".toList (List.replicate gap ' ' ++ intText z) tail
  | .entry _ indent gap key value tail =>
      named (indent + 1) key.toList (List.replicate gap ' ' ++ value.toList) tail

/-- The file of a list of lines; one that ends in a newline ends in an empty line. -/
def render (doc : List Line) : String := .ofList (List.intercalate ['\n'] (doc.map Line.text))

/-- A key: no colon, no comment sign, no whitespace at its edges. -/
structure KeyOk (key : List Char) : Prop where
  colon : ':' ∉ key
  hash : '#' ∉ key
  tight : Tight isSpace key

/-- A value: no comment in it or at its start, no whitespace at its edges. -/
structure ValueOk (value : List Char) : Prop where
  comment : ¬ [' ', '#'] <:+: value
  hash : value.head? ≠ some '#'
  tight : Tight isSpace value

/-- Whitespace only, or whitespace and a comment. -/
def IsNoise (text : List Char) : Prop :=
  ∃ lead rest, (∀ c ∈ lead, isSpace c = true) ∧ text = lead ++ rest ∧ (rest = [] ∨ rest.head? = some '#')

/-- A 64-bit integer. -/
def IsInt64 (z : ℤ) : Prop := -2 ^ 63 ≤ z ∧ z < 2 ^ 63

/-- What a line may hold. -/
def Line.Holds : Line → Prop
  | .noise text => IsNoise text
  | .header _ _ => True
  | .interval _ z _ => IsInt64 z
  | .window _ z _ => IsInt64 z
  | .entry _ _ _ key value _ => KeyOk key.toList ∧ ValueOk value.toList

/-- A line that can be printed: its parts hold what they may, it is one line, and it fits the scanner's
    buffer. -/
structure Line.Ok (line : Line) : Prop where
  holds : line.Holds
  single : '\n' ∉ line.text
  short : byteLen line.text < bufferSize

/-! ## Content -/

section Content
variable {a body rest name l : List Char} {c : Char}

theorem isSpace_blank : isSpace ' ' = true := by decide

theorem isSpace_of_replicate {n : ℕ} : ∀ c ∈ List.replicate n ' ', isSpace c = true := by
  intro c hc
  rw [List.eq_of_mem_replicate hc]
  exact isSpace_blank

/-- A pair in a list starts at its head or lies behind it. -/
theorem pair_infix_cons {x y : Char} : [x, y] <:+: c :: l ↔ (c = x ∧ l.head? = some y) ∨ [x, y] <:+: l := by
  rw [List.infix_cons_iff]
  refine or_congr_left ?_
  cases l with
  | nil => simp
  | cons d l =>
      simp only [List.cons_prefix_cons, List.nil_prefix, and_true, List.head?_cons, Option.some.injEq]
      exact and_congr eq_comm eq_comm

/-- Spaces before a text that does not start a comment make none. -/
theorem no_comment_spaces (hl : ¬ [' ', '#'] <:+: l) (hhead : l.head? ≠ some '#') (n : ℕ) :
    ¬ [' ', '#'] <:+: List.replicate n ' ' ++ l ∧ (List.replicate n ' ' ++ l).head? ≠ some '#' := by
  induction n with
  | zero => exact ⟨hl, hhead⟩
  | succ n ih =>
      rw [List.replicate_succ, List.cons_append]
      refine ⟨?_, by simp⟩
      rw [pair_infix_cons]
      rintro (⟨-, h⟩ | h)
      · exact ih.2 h
      · exact ih.1 h

/-- A name without comment signs before a colon makes none. -/
theorem no_comment_named (hname : '#' ∉ name) (hrest : ¬ [' ', '#'] <:+: rest) :
    ¬ [' ', '#'] <:+: name ++ ':' :: rest := by
  induction name with
  | nil =>
      rw [List.nil_append, pair_infix_cons]
      rintro (⟨h, -⟩ | h)
      · exact absurd h (by decide)
      · exact hrest h
  | cons c name ih =>
      obtain ⟨-, hname⟩ := not_or.mp (List.mem_cons.not.mp hname)
      rw [List.cons_append, pair_infix_cons]
      rintro (⟨-, h⟩ | h)
      · cases name with
        | nil => exact absurd (Option.some.inj h) (by decide)
        | cons d name => exact hname (Option.some.inj h ▸ List.mem_cons_self)
      · exact ih hname h

/-- Spaces after a text make no comment. -/
theorem no_comment_padded (hl : ¬ [' ', '#'] <:+: l) (n : ℕ) : ¬ [' ', '#'] <:+: l ++ List.replicate n ' ' := by
  induction n with
  | zero => simpa using hl
  | succ n ih =>
      rw [List.replicate_succ', ← List.append_assoc, List.infix_concat_iff]
      rintro (h | h)
      · obtain ⟨pre, hpre⟩ := h
        have hlast := congrArg List.getLast? hpre
        simp at hlast
      · exact ih h

/-- Dropping the carriage return and the spaces at the end does not change what is trimmed. -/
theorem trimSpace_line (text : List Char) : trimSpace (trimRight (dropCR text)) = trimSpace text := by
  unfold trimSpace trimRight
  rw [trim_rdropWhile fun c hc => by rw [of_decide_eq_true hc]; exact isSpace_blank]
  unfold dropCR
  split
  · rename_i hlast
    conv_rhs => rw [← List.dropLast_append_getLast? _ hlast]
    refine (trim_append_right fun c hc => ?_).symm
    rw [List.mem_singleton.mp hc]
    decide
  · rfl

/-- A line that is not blank starts as its text does. -/
theorem head?_line {text : List Char} (h : trimSpace text ≠ []) :
    (trimRight (dropCR text)).head? = text.head? := by
  have hpre : trimRight (dropCR text) <+: text := by
    unfold trimRight dropCR
    refine (List.rdropWhile_prefix _ _).trans ?_
    split
    · exact List.dropLast_prefix text
    · exact List.prefix_refl text
  obtain ⟨rest, hrest⟩ := hpre
  rw [← trimSpace_line] at h
  cases hline : trimRight (dropCR text) with
  | nil => rw [hline] at h; exact absurd rfl h
  | cons c l => rw [← hrest, hline]; rfl

/-- **What is read of a line is its content**: a text without a comment, whatever is around it. -/
theorem stripComment_padded (hc : isSpace c = false) (hno : ¬ [' ', '#'] <:+: c :: body) {lead : List Char}
    (hlead : ∀ d ∈ lead, isSpace d = true) (tail : Tail) :
    (∃ rest, trimSpace (lead ++ (c :: body) ++ tail.text) = c :: rest) ∧
      stripComment (trimSpace (lead ++ (c :: body) ++ tail.text)) = trimSpace (c :: body) := by
  obtain ⟨pad, comment⟩ := tail
  have hbody : ∀ l, trimSpace (lead ++ (c :: body) ++ l) = c :: (body ++ l).rdropWhile isSpace := by
    intro l
    unfold trimSpace
    rw [List.append_assoc, trim_append_left hlead, List.cons_append, trim_cons hc]
  refine ⟨⟨_, hbody _⟩, ?_⟩
  rw [hbody]
  unfold Tail.text trimSpace
  rw [trim_cons hc]
  cases comment with
  | none =>
      have hpre : c :: body.rdropWhile isSpace <+: c :: body :=
        List.cons_prefix_cons.mpr ⟨rfl, List.rdropWhile_prefix _ _⟩
      dsimp only
      rw [List.append_nil, rdropWhile_append_of_all isSpace_of_replicate, stripComment,
        cut_eq_none fun h => hno (h.trans hpre.isInfix)]
  | some text =>
      -- trimming stops at the comment sign, and the first comment is this one
      have hstop : (body ++ (List.replicate pad ' ' ++ ' ' :: '#' :: text)).rdropWhile isSpace =
          body ++ List.replicate pad ' ' ++ ' ' :: '#' :: text.rdropWhile isSpace := by
        have hshift : ∀ t, body ++ (List.replicate pad ' ' ++ ' ' :: '#' :: t) =
            (body ++ List.replicate pad ' ' ++ [' ']) ++ '#' :: t := by simp
        rw [hshift, rdropWhile_append_cons (by decide)]
        simp
      have hcut : cut [' ', '#']
          (c :: (body ++ List.replicate pad ' ' ++ ' ' :: '#' :: text.rdropWhile isSpace)) =
          some (c :: body ++ List.replicate pad ' ', text.rdropWhile isSpace) := by
        have := cut_pair (by decide) (no_comment_padded hno pad) (text.rdropWhile isSpace)
        simpa using this
      dsimp only
      rw [hstop, stripComment, hcut]
      dsimp only
      unfold trimSpace
      rw [trim_append_right isSpace_of_replicate, trim_cons hc]

end Content

/-! ## Numbers -/

section Numbers
variable {z : ℤ} {c : Char} {s : List Char}

theorem isSpace_of_isDigit (h : c.isDigit = true) : isSpace c = false ∧ c ≠ '#' ∧ c ≠ '-' ∧ c ≠ '+' := by
  have hrange : 48 ≤ c.toNat ∧ c.toNat ≤ 57 := by
    simpa [Char.isDigit, ← Char.toNat_val, UInt32.le_iff_toNat_le] using h
  have hne : ∀ d : Char, (d.toNat < 48 ∨ 57 < d.toNat) → c ≠ d := by
    rintro d hd rfl
    omega
  refine ⟨?_, hne '#' (by decide), hne '-' (by decide), hne '+' (by decide)⟩
  simp only [isSpace, List.mem_cons, List.not_mem_nil, or_false, Bool.or_eq_false_iff, decide_eq_false_iff_not,
    Bool.and_eq_false_iff]
  omega

theorem signedValue_eq {neg : Bool} (hs : s ≠ []) (h : ∀ c ∈ s, c.isDigit = true)
    (hz : (if neg then -((Nat.ofDigitChars 10 s 0 : ℕ) : ℤ) else (Nat.ofDigitChars 10 s 0 : ℕ)) = z)
    (hrange : IsInt64 z) : signedValue neg s = some z := by
  unfold signedValue
  rw [if_pos ⟨hs, List.all_eq_true.mpr h⟩]
  dsimp only
  rw [hz]
  exact if_pos hrange

/-- Digits need no sign. -/
theorem atoi_digits (h : ∀ c ∈ s, c.isDigit = true) : atoi s = signedValue false s := by
  unfold atoi
  split
  · exact absurd rfl (isSpace_of_isDigit (h '-' List.mem_cons_self)).2.2.1
  · exact absurd rfl (isSpace_of_isDigit (h '+' List.mem_cons_self)).2.2.2
  · rfl

theorem intText_eq (z : ℤ) :
    intText z = if 0 ≤ z then Nat.toDigits 10 z.toNat else '-' :: Nat.toDigits 10 (-z).toNat := by
  unfold intText
  rw [Int.toString_eq_repr, Int.repr_eq_if]
  split
  · exact Nat.toList_repr
  · rw [String.toList_append, Nat.toList_repr]
    rfl

/-- **A printed integer is read back.** -/
theorem atoi_intText (h : IsInt64 z) : atoi (intText z) = some z := by
  have hdigits : ∀ n, ∀ c ∈ Nat.toDigits 10 n, c.isDigit = true :=
    fun n c hc => Nat.isDigit_of_mem_toDigits (by decide) (by decide) hc
  rw [intText_eq]
  split
  · rename_i hz
    have hvalue : ((Nat.ofDigitChars 10 (Nat.toDigits 10 z.toNat) 0 : ℕ) : ℤ) = z := by
      rw [Nat.ofDigitChars_ten_toDigits, Int.toNat_of_nonneg hz]
    rw [atoi_digits (hdigits _)]
    exact signedValue_eq Nat.toDigits_ne_nil (hdigits _) hvalue h
  · rename_i hz
    have hvalue : -((Nat.ofDigitChars 10 (Nat.toDigits 10 (-z).toNat) 0 : ℕ) : ℤ) = z := by
      rw [Nat.ofDigitChars_ten_toDigits, Int.toNat_of_nonneg (by omega), neg_neg]
    exact signedValue_eq Nat.toDigits_ne_nil (hdigits _) hvalue h

/-- A printed integer is a value. -/
theorem intText_ok (z : ℤ) : ValueOk (intText z) := by
  have hchars : ∀ c ∈ intText z, isSpace c = false ∧ c ≠ '#' := by
    intro c hc
    rw [intText_eq] at hc
    split at hc
    · have h := isSpace_of_isDigit (Nat.isDigit_of_mem_toDigits (by decide) (by decide) hc)
      exact ⟨h.1, h.2.1⟩
    · rcases List.mem_cons.mp hc with rfl | hc
      · decide
      · have h := isSpace_of_isDigit (Nat.isDigit_of_mem_toDigits (by decide) (by decide) hc)
        exact ⟨h.1, h.2.1⟩
  refine ⟨?_, ?_, ?_, ?_⟩
  · intro h
    exact (hchars '#' (h.subset (by simp))).2 rfl
  · intro h
    exact (hchars '#' (List.mem_of_head? h)).2 rfl
  · intro c hc
    exact (hchars c (List.mem_of_head? hc)).1
  · intro c hc
    exact (hchars c (List.mem_of_getLast? hc)).1

end Numbers

/-! ## One line -/

section Apply
variable (parseFloat : String → Option Float64)

/-- What a printed line is meant to do to the reader. -/
def Line.apply (r : Reader) : Line → Reader
  | .noise _ => r
  | .header sec _ => { r with sec := some sec }
  | .interval _ z _ => { r with pack := { r.pack with intervalS := z } }
  | .window _ z _ => { r with pack := { r.pack with windowMin := z } }
  | .entry .queries _ _ key value _ =>
      { r with pack := { r.pack with
          queries := r.pack.queries.set key value
          order := r.pack.order ++ [key] } }
  | .entry .thresholds _ _ key value _ =>
      match parseFloat value with
      | some fv => { r with pack := { r.pack with thresholds := r.pack.thresholds.set key fv } }
      | none => r

/-- An entry stands in its own section. -/
def Line.InSection (sec : Option PackSection) : Line → Prop
  | .entry own _ _ _ _ _ => sec = some own
  | _ => True

/-- The section after a line. -/
def Line.secAfter (sec : Option PackSection) : Line → Option PackSection
  | .header own _ => some own
  | _ => sec

end Apply

section OneLine
variable {parseFloat : String → Option Float64} {r : Reader} {name rest value : List Char} {gap : ℕ}

/-- A named line is read as a setting or as an entry, by its indentation. -/
theorem packLine_named (hhash : '#' ∉ name) (htight : Tight isSpace name) (hrest : ¬ [' ', '#'] <:+: rest)
    (indent : ℕ) (tail : Tail) : packLine parseFloat r (dropCR (named indent name rest tail)) =
      if indent = 0 then setting r (name ++ ':' :: rest.rdropWhile isSpace)
      else entry parseFloat r (name ++ ':' :: rest.rdropWhile isSpace) := by
  -- the content starts with the name, or with the colon of an empty one
  obtain ⟨c, body, hbody, hc, hne⟩ :
      ∃ c body, name ++ ':' :: rest = c :: body ∧ isSpace c = false ∧ c ≠ '#' := by
    cases name with
    | nil => exact ⟨':', rest, rfl, by decide, by decide⟩
    | cons c name =>
        exact ⟨c, name ++ ':' :: rest, rfl, htight.left c rfl, fun h => hhash (h ▸ List.mem_cons_self)⟩
  have hno : ¬ [' ', '#'] <:+: c :: body := hbody ▸ no_comment_named hhash hrest
  obtain ⟨⟨rest', htrim⟩, hcontent⟩ := stripComment_padded hc hno (isSpace_of_replicate (n := indent)) tail
  have hblank : c ≠ ' ' := by
    rintro rfl
    exact absurd hc (by decide)
  have htext : trimSpace (c :: body) = name ++ ':' :: rest.rdropWhile isSpace := by
    rw [← hbody]
    unfold trimSpace trim
    cases name with
    | nil => exact trim_cons (by decide) rest
    | cons d name =>
        rw [List.cons_append, List.dropWhile_cons_of_neg (by simp [htight.left d rfl]), ← List.cons_append]
        exact rdropWhile_append_cons (by decide) (d :: name) rest
  unfold packLine named
  dsimp only
  rw [hbody, trimSpace_line, hcontent, htext, head?_line (by rw [htrim]; simp), htrim, if_neg (by simp [hne])]
  cases indent with
  | zero => simp [hblank]
  | succ n => simp [List.replicate_succ]

theorem splitKV_named (hcolon : ':' ∉ name) (htight : Tight isSpace name) :
    splitKV (name ++ ':' :: rest.rdropWhile isSpace) = some (name, trimSpace rest) := by
  unfold splitKV trimSpace
  rw [cut_char hcolon, Option.map_some, trim_of_tight htight, trim_rdropWhile fun _ h => h]

/-- Spaces before a value are trimmed off. -/
theorem trimSpace_gap (h : ValueOk value) : trimSpace (List.replicate gap ' ' ++ value) = value := by
  unfold trimSpace
  rw [trim_append_left isSpace_of_replicate, trim_of_tight h.tight]

/-- The value of a printed setting. -/
theorem atoiDefault_named {z : ℤ} (h : IsInt64 z) (hcolon : ':' ∉ name) (htight : Tight isSpace name) (d : ℤ) :
    atoiDefault (valOf (name ++ ':' :: (List.replicate gap ' ' ++ intText z).rdropWhile isSpace)) d = z := by
  unfold atoiDefault valOf
  rw [splitKV_named hcolon htight, Option.map_some, Option.getD_some, trimSpace_gap (intText_ok z), trimSpace,
    trim_of_tight (intText_ok z).tight, atoi_intText h, Option.getD_some]

theorem setting_interval (l : List Char) : setting r ("interval_s".toList ++ ':' :: l) =
    { r with pack := { r.pack with intervalS := atoiDefault (valOf ("interval_s".toList ++ ':' :: l)) 5 } } :=
  rfl

theorem setting_window (l : List Char) : setting r ("window_min".toList ++ ':' :: l) =
    { r with pack := { r.pack with windowMin := atoiDefault (valOf ("window_min".toList ++ ':' :: l)) 15 } } :=
  rfl

/-- Noise is skipped. -/
theorem packLine_noise {text : List Char} (h : IsNoise text) : packLine parseFloat r (dropCR text) = r := by
  obtain ⟨lead, rest, hlead, rfl, hrest⟩ := h
  unfold packLine
  dsimp only
  rw [trimSpace_line]
  refine if_pos ?_
  unfold trimSpace
  rw [trim_append_left hlead]
  cases rest with
  | nil => exact Or.inl rfl
  | cons c rest =>
      obtain rfl := Option.some.inj (hrest.resolve_left (List.cons_ne_nil _ _))
      rw [trim_cons (by decide)]
      exact Or.inr rfl

/-- **A printed line does what it is meant to do**, in its section. -/
theorem packLine_text {line : Line} (hholds : line.Holds) (hsec : line.InSection r.sec) :
    packLine parseFloat r (dropCR line.text) = line.apply parseFloat r := by
  cases line with
  | noise text => exact packLine_noise hholds
  | header sec tail =>
      cases sec with
      | queries =>
          rw [Line.text, packLine_named (by decide) (by decide) (by simp), if_pos rfl]
          rfl
      | thresholds =>
          rw [Line.text, packLine_named (by decide) (by decide) (by simp), if_pos rfl]
          rfl
  | interval gap z tail =>
      have hrest := (no_comment_spaces (intText_ok z).comment (intText_ok z).hash gap).1
      rw [Line.text, packLine_named (by decide) (by decide) hrest, if_pos rfl, setting_interval,
        atoiDefault_named hholds (by decide) (by decide), Line.apply]
  | window gap z tail =>
      have hrest := (no_comment_spaces (intText_ok z).comment (intText_ok z).hash gap).1
      rw [Line.text, packLine_named (by decide) (by decide) hrest, if_pos rfl, setting_window,
        atoiDefault_named hholds (by decide) (by decide), Line.apply]
  | entry sec indent gap key value tail =>
      obtain ⟨hkey, hvalue⟩ := hholds
      have hrest := (no_comment_spaces hvalue.comment hvalue.hash gap).1
      have hown : r.sec = some sec := hsec
      rw [Line.text, packLine_named hkey.hash hkey.tight hrest, if_neg (Nat.succ_ne_zero indent), entry,
        splitKV_named hkey.colon hkey.tight, trimSpace_gap hvalue]
      dsimp only
      rw [hown]
      have htrim : trimSpace value.toList = value.toList := trim_of_tight hvalue.tight
      cases sec with
      | queries => simp [Line.apply, hown]
      | thresholds =>
          rw [htrim, String.ofList_toList, String.ofList_toList, Line.apply]
          cases parseFloat value with
          | none => rfl
          | some fv => rw [hown]

end OneLine

/-! ## A file -/

/-- Every entry stands in its own section. -/
def Placed (sec : Option PackSection) : List Line → Prop
  | [] => True
  | line :: doc => line.InSection sec ∧ Placed (line.secAfter sec) doc

def Line.query? : Line → Option (Signal × String)
  | .entry .queries _ _ key value _ => some (key, value)
  | _ => none

def Line.threshold? : Line → Option (String × String)
  | .entry .thresholds _ _ key value _ => some (key, value)
  | _ => none

def Line.interval? : Line → Option ℤ
  | .interval _ z _ => some z
  | _ => none

def Line.window? : Line → Option ℤ
  | .window _ z _ => some z
  | _ => none

/-- The lines print these queries and thresholds, in file order and each in its section, and these two
    settings. -/
structure Prints (doc : List Line) (queries : List (Signal × String)) (thresholds : List (String × String))
    (interval window : ℤ) : Prop where
  ok : ∀ line ∈ doc, line.Ok
  placed : Placed none doc
  queries : doc.filterMap Line.query? = queries
  thresholds : doc.filterMap Line.threshold? = thresholds
  interval : doc.filterMap Line.interval? = [interval]
  window : doc.filterMap Line.window? = [window]

section File
variable {parseFloat : String → Option Float64} {r : Reader} {doc : List Line}

variable (parseFloat) in
/-- The thresholds that parse. -/
def accepted (thresholds : List (String × String)) : List (String × Float64) :=
  thresholds.filterMap fun kv => (parseFloat kv.2).map fun fv => (kv.1, fv)

theorem secAfter_apply (r : Reader) (line : Line) : (line.apply parseFloat r).sec = line.secAfter r.sec := by
  cases line with
  | entry sec indent gap key value tail =>
      cases sec with
      | queries => rfl
      | thresholds =>
          show (match parseFloat value with | some fv => _ | none => r : Reader).sec = r.sec
          cases parseFloat value <;> rfl
  | _ => rfl

/-- The reader goes through a printed file line by line. -/
theorem foldl_packLine (hok : ∀ line ∈ doc, line.Ok) (hplaced : Placed r.sec doc) :
    ((doc.map Line.text).map dropCR).foldl (packLine parseFloat) r =
      doc.foldl (fun r line => line.apply parseFloat r) r := by
  induction doc generalizing r with
  | nil => rfl
  | cons line doc ih =>
      obtain ⟨hsec, hrest⟩ := hplaced
      rw [List.map_cons, List.map_cons, List.foldl_cons, List.foldl_cons,
        packLine_text (hok line List.mem_cons_self).holds hsec]
      exact ih (fun l hl => hok l (List.mem_cons_of_mem line hl)) (secAfter_apply r line ▸ hrest)

/-- **What the lines do to the pack**, part by part. -/
theorem foldl_apply_pack (r : Reader) (doc : List Line) :
    (doc.foldl (fun r line => line.apply parseFloat r) r).pack =
      { intervalS := (doc.filterMap Line.interval?).getLastD r.pack.intervalS
        windowMin := (doc.filterMap Line.window?).getLastD r.pack.windowMin
        queries := (doc.filterMap Line.query?).foldl (fun d kv => d.set kv.1 kv.2) r.pack.queries
        order := r.pack.order ++ (doc.filterMap Line.query?).map Prod.fst
        thresholds := (accepted parseFloat (doc.filterMap Line.threshold?)).foldl (fun d kv => d.set kv.1 kv.2)
          r.pack.thresholds } := by
  induction doc generalizing r with
  | nil => simp [accepted]
  | cons line doc ih =>
      rw [List.foldl_cons, ih]
      simp only [List.filterMap_cons]
      cases line with
      | noise text => rfl
      | header sec tail => rfl
      | interval gap z tail =>
          simp only [Line.apply, Line.interval?, Line.window?, Line.query?, Line.threshold?, List.getLastD_cons]
      | window gap z tail =>
          simp only [Line.apply, Line.interval?, Line.window?, Line.query?, Line.threshold?, List.getLastD_cons]
      | entry sec indent gap key value tail =>
          cases sec with
          | queries => simp [Line.apply, Line.interval?, Line.window?, Line.query?, Line.threshold?]
          | thresholds =>
              cases hparse : parseFloat value with
              | none =>
                  simp [Line.apply, Line.interval?, Line.window?, Line.query?, Line.threshold?, accepted, hparse]
              | some fv =>
                  simp [Line.apply, Line.interval?, Line.window?, Line.query?, Line.threshold?, accepted, hparse]

/-- Lines that fit are all scanned. -/
theorem scan_of_short {lines : List (List Char)} (h : ∀ line ∈ lines, byteLen line < bufferSize) :
    scan lines = (lines.map dropCR, false) := by
  induction lines with
  | nil => rfl
  | cons line lines ih =>
      rw [scan, if_neg (not_le.mpr (h line List.mem_cons_self)),
        ih fun l hl => h l (List.mem_cons_of_mem line hl)]
      rfl

theorem packLine_nil (parseFloat : String → Option Float64) (r : Reader) :
    packLine parseFloat r (dropCR []) = r :=
  packLine_noise ⟨[], [], by simp, rfl, Or.inl rfl⟩

/-- A last line without characters would change nothing. -/
theorem foldl_linesOf (file : List Char) :
    ((linesOf file).map dropCR).foldl (packLine parseFloat) r =
      ((file.splitOn '\n').map dropCR).foldl (packLine parseFloat) r := by
  unfold linesOf
  dsimp only
  split
  · rename_i hlast
    conv_rhs => rw [← List.dropLast_append_getLast? _ hlast]
    rw [List.map_append, List.foldl_append]
    exact (packLine_nil parseFloat _).symm
  · rfl

theorem mem_linesOf {file line : List Char} (h : line ∈ linesOf file) : line ∈ file.splitOn '\n' := by
  unfold linesOf at h
  dsimp only at h
  split at h
  · exact List.mem_of_mem_dropLast h
  · exact h

/-- **The pack that was printed is the pack that is read**: the queries in file order, the thresholds that parse, and
    the two settings, whatever noise, padding and comments stand between and behind them. -/
theorem loadPack_printed (parseFloat : String → Option Float64) (doc : List Line)
    (queries : List (Signal × String)) (thresholds : List (String × String)) (interval window : ℤ)
    (hdoc : Prints doc queries thresholds interval window) (hkeys : (queries.map Prod.fst).Nodup) :
    loadPack parseFloat (.ok (render doc)) =
      (some { intervalS := interval
              windowMin := window
              queries := ⟨queries, hkeys⟩
              order := queries.map Prod.fst
              thresholds := .ofList (accepted parseFloat thresholds) }, none) := by
  have hne : doc ≠ [] := by
    rintro rfl
    exact absurd hdoc.interval (by simp)
  have hsplit : (render doc).toList.splitOn '\n' = doc.map Line.text := by
    unfold render
    rw [String.toList_ofList]
    refine List.splitOn_intercalate '\n' ?_ (by simpa using hne)
    intro text htext
    obtain ⟨line, hline, rfl⟩ := List.mem_map.mp htext
    exact (hdoc.ok line hline).single
  have hshort : ∀ text ∈ linesOf (render doc).toList, byteLen text < bufferSize := by
    intro text htext
    have hmem := mem_linesOf htext
    rw [hsplit] at hmem
    obtain ⟨line, hline, rfl⟩ := List.mem_map.mp hmem
    exact (hdoc.ok line hline).short
  have hqueries : Dict.ofList queries = ⟨queries, hkeys⟩ := Dict.ofList_of_nodup hkeys
  unfold loadPack
  dsimp only
  rw [scan_of_short hshort]
  dsimp only
  rw [foldl_linesOf, hsplit, foldl_packLine hdoc.ok hdoc.placed, foldl_apply_pack, hdoc.queries, hdoc.thresholds,
    hdoc.interval, hdoc.window, ← hqueries]
  rfl

end File

/-! ### A small pack, with a comment full of colons -/

def smallPack : List Line :=
  [.noise "# L2 query pack".toList, .interval 1 5 ⟨0, none⟩, .window 1 15 ⟨1, some " minutes: 15".toList⟩,
    .header .queries ⟨0, none⟩,
    .entry .queries 1 10 "cpu" "sum by (pod) (rate(cpu\x7bns=~\"factory-.*\"\x7d[30s]))"
      ⟨1, some " stage: \"2\"".toList⟩,
    .noise [], .entry .queries 1 4 "disk_io" "rate(node:disk_io[30s])" ⟨0, none⟩,
    .header .thresholds ⟨0, some " per signal".toList⟩,
    .entry .thresholds 1 1 "psi_some_avg" "0.15" ⟨2, none⟩, .noise []]

def smallFloat (s : String) : Option Float64 := if s = "0.15" then some (.finite (15 / 100)) else none

theorem smallPack_prints : Prints smallPack
    [("cpu", "sum by (pod) (rate(cpu\x7bns=~\"factory-.*\"\x7d[30s]))"), ("disk_io", "rate(node:disk_io[30s])")]
    [("psi_some_avg", "0.15")] 5 15 := by
  have hblank : IsNoise [] := ⟨[], [], by simp, rfl, Or.inl rfl⟩
  have hsingle : ∀ line ∈ smallPack, '\n' ∉ line.text := by decide +kernel
  have hshort : ∀ line ∈ smallPack, byteLen line.text < bufferSize := by decide +kernel
  have hholds : ∀ line ∈ smallPack, line.Holds := by
    have hcomment : IsNoise "# L2 query pack".toList := ⟨[], _, by simp, rfl, Or.inr rfl⟩
    have hcpu : KeyOk "cpu".toList ∧ ValueOk "sum by (pod) (rate(cpu\x7bns=~\"factory-.*\"\x7d[30s]))".toList :=
      ⟨⟨by decide, by decide, by decide⟩, ⟨by decide +kernel, by decide, by decide⟩⟩
    have hdisk : KeyOk "disk_io".toList ∧ ValueOk "rate(node:disk_io[30s])".toList :=
      ⟨⟨by decide, by decide, by decide⟩, ⟨by decide +kernel, by decide, by decide⟩⟩
    have hpsi : KeyOk "psi_some_avg".toList ∧ ValueOk "0.15".toList :=
      ⟨⟨by decide, by decide, by decide⟩, ⟨by decide +kernel, by decide, by decide⟩⟩
    have hfive : IsInt64 5 := ⟨by decide, by decide⟩
    have hquarter : IsInt64 15 := ⟨by decide, by decide⟩
    simp only [smallPack, List.forall_mem_cons, List.not_mem_nil, IsEmpty.forall_iff, implies_true, and_true]
    exact ⟨hcomment, hfive, hquarter, trivial, hcpu, hblank, hdisk, trivial, hpsi, hblank⟩
  exact ⟨fun line h => ⟨hholds line h, hsingle line h, hshort line h⟩, by simp [smallPack, Placed, Line.InSection,
    Line.secAfter], rfl, rfl, rfl, rfl⟩

theorem loadPack_printed_small : ((loadPack smallFloat (.ok (render smallPack))).1.map fun p =>
    (p.intervalS, p.windowMin, p.order, p.thresholds.get? "psi_some_avg")) =
      some (5, 15, ["cpu", "disk_io"], some (.finite (15 / 100))) := by
  rw [loadPack_printed smallFloat smallPack _ _ 5 15 smallPack_prints (by decide)]
  decide +kernel

end EdgeCausal.Api
