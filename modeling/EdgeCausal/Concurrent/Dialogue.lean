import EdgeCausal.Temporal.History

/-!
# `Concurrent.Dialogue` — programs that ask and wait

A dialogue asks one question after another, each after the reply to the one before, and ends with an answer. Any
number of them go on at once, and the replies come in any order and say anything (`interleaved`). What a dialogue
keeps over its own exchanges, wherever they lead, it keeps among others (`interleaved_local`); each is what its own
exchanges make of the one that came in its place (`interleaved_origin`); and an effect that comes with the answer is
counted by the answers (`interleaved_count`).
-/

namespace Lib

universe u

inductive Dialogue (Q R A : Type u) where
  | done (a : A)
  | ask (q : Q) (next : R → Dialogue Q R A)

namespace Dialogue

variable {Q R A B : Type u}

/-- The answer of a dialogue that is over. -/
def answer? : Dialogue Q R A → Option A
  | .done a => some a
  | .ask _ _ => none

/-- The same questions, another answer. -/
def map (f : A → B) : Dialogue Q R A → Dialogue Q R B
  | .done a => .done (f a)
  | .ask q next => .ask q fun r => (next r).map f

/-- A whole dialogue: what was exchanged, and the answer. -/
inductive Run : Dialogue Q R A → List (Q × R) → A → Prop
  | done (a : A) : Run (.done a) [] a
  | ask {q : Q} {next : R → Dialogue Q R A} {r : R} {log : List (Q × R)} {a : A} (h : Run (next r) log a) :
      Run (.ask q next) ((q, r) :: log) a

theorem run_done_iff {a a' : A} {log : List (Q × R)} : Run (.done a) log a' ↔ log = [] ∧ a' = a := by
  constructor
  · rintro ⟨⟩
    exact ⟨rfl, rfl⟩
  · rintro ⟨rfl, rfl⟩
    exact .done _

theorem run_ask_iff {q : Q} {next : R → Dialogue Q R A} {log : List (Q × R)} {a : A} :
    Run (.ask q next) log a ↔ ∃ r rest, log = (q, r) :: rest ∧ Run (next r) rest a := by
  constructor
  · rintro (_ | ⟨h⟩)
    exact ⟨_, _, rfl, h⟩
  · rintro ⟨r, rest, rfl, h⟩
    exact .ask h

/-- However many exchanges there may be. -/
def Within : ℕ → Dialogue Q R A → Prop
  | _, .done _ => True
  | 0, .ask _ _ => False
  | n + 1, .ask _ next => ∀ r, Within n (next r)

/-- Each exchange satisfies `P`, wherever the replies lead: the exchange before it, if any, the question, the reply
    and what is left of the dialogue. -/
def Always (P : Option (Q × R) → Q → R → Dialogue Q R A → Prop) : Option (Q × R) → Dialogue Q R A → Prop
  | _, .done _ => True
  | last, .ask q next => ∀ r, P last q r (next r) ∧ Always P (some (q, r)) (next r)

theorem Always.step {P : Option (Q × R) → Q → R → Dialogue Q R A → Prop} {l : List (Q × R)} {q : Q}
    {next : R → Dialogue Q R A} (h : (Dialogue.ask q next).Always P l.getLast?) (r : R) :
    P l.getLast? q r (next r) ∧ (next r).Always P (l ++ [(q, r)]).getLast? := by
  rw [List.getLast?_concat]
  exact h r

theorem always_map {P : Option (Q × R) → Q → R → Dialogue Q R B → Prop} {f : A → B} {last : Option (Q × R)}
    {d : Dialogue Q R A} : (d.map f).Always P last ↔ d.Always (fun last q r d' => P last q r (d'.map f)) last := by
  induction d generalizing last with
  | done a => exact Iff.rfl
  | ask q next ih => exact forall_congr' fun r => and_congr_right fun _ => ih r

theorem within_done (n : ℕ) (a : A) : (Dialogue.done a : Dialogue Q R A).Within n := by
  cases n <;> trivial

theorem Within.mono {n m : ℕ} {d : Dialogue Q R A} (h : d.Within n) (hnm : n ≤ m) : d.Within m := by
  induction d generalizing n m with
  | done a => exact within_done m a
  | ask q next ih =>
      cases n with
      | zero => exact h.elim
      | succ n =>
          obtain ⟨m, rfl⟩ : ∃ k, m = k + 1 := ⟨m - 1, by omega⟩
          exact fun r => ih r (h r) (by omega)

theorem Always.imp {P P' : Option (Q × R) → Q → R → Dialogue Q R A → Prop} {last : Option (Q × R)}
    {d : Dialogue Q R A} (h : d.Always P last) (himp : ∀ last q r d, P last q r d → P' last q r d) :
    d.Always P' last := by
  induction d generalizing last with
  | done a => trivial
  | ask q next ih => exact fun r => ⟨himp _ _ _ _ (h r).1, ih r (h r).2⟩

theorem within_map {f : A → B} {n : ℕ} {d : Dialogue Q R A} : (d.map f).Within n ↔ d.Within n := by
  induction d generalizing n with
  | done a => cases n <;> exact Iff.rfl
  | ask q next ih =>
      cases n with
      | zero => exact Iff.rfl
      | succ n => exact forall_congr' fun r => ih r

theorem run_map_iff {f : A → B} {d : Dialogue Q R A} {log : List (Q × R)} {b : B} :
    Run (d.map f) log b ↔ ∃ a, Run d log a ∧ f a = b := by
  induction d generalizing log with
  | done a =>
      simp only [map, run_done_iff]
      constructor
      · rintro ⟨rfl, rfl⟩
        exact ⟨a, ⟨rfl, rfl⟩, rfl⟩
      · rintro ⟨a', ⟨rfl, rfl⟩, rfl⟩
        exact ⟨rfl, rfl⟩
  | ask q next ih =>
      simp only [map, run_ask_iff]
      constructor
      · rintro ⟨r, rest, rfl, h⟩
        obtain ⟨a, ha, rfl⟩ := (ih r).mp h
        exact ⟨a, ⟨r, rest, rfl, ha⟩, rfl⟩
      · rintro ⟨a, ⟨r, rest, rfl, h⟩, rfl⟩
        exact ⟨r, rest, rfl, (ih r).mpr ⟨a, h, rfl⟩⟩

/-- `d'` is left of `d` after the exchanges `l`. -/
inductive Leaves (d : Dialogue Q R A) : List (Q × R) → Dialogue Q R A → Prop
  | start : Leaves d [] d
  | ask {l : List (Q × R)} {q : Q} {next : R → Dialogue Q R A} (h : Leaves d l (.ask q next)) (r : R) :
      Leaves d (l ++ [(q, r)]) (next r)

/-- What a dialogue starts with and keeps, it has left. -/
theorem Leaves.inv {J : List (Q × R) → Dialogue Q R A → Prop} {d d' : Dialogue Q R A} {l : List (Q × R)}
    (h : Leaves d l d') (h0 : J [] d)
    (hstep : ∀ l q next r, J l (.ask q next) → J (l ++ [(q, r)]) (next r)) : J l d' := by
  induction h with
  | start => exact h0
  | ask _ r ih => exact hstep _ _ _ r ih

@[simp] theorem answer?_map (f : A → B) (d : Dialogue Q R A) : (d.map f).answer? = d.answer?.map f := by
  cases d <;> rfl

end Dialogue

/-! ## Many at once -/

/-- A new dialogue, or a reply to one of those there are. -/
inductive Move (Q R A : Type u) where
  | arrive (d : Dialogue Q R A)
  | reply (i : ℕ) (r : R)

section Interleaving
variable {Q R A : Type u}

/-- One move: the dialogues after it, and whose exchange it was. A reply that nobody waits for is lost. -/
def move (clients : List (Dialogue Q R A)) : Move Q R A → List (Dialogue Q R A) × List (ℕ × Q × R)
  | .arrive d => (clients ++ [d], [])
  | .reply i r =>
      match clients[i]? with
      | some (.ask q next) => (clients.set i (next r), [(i, q, r)])
      | _ => (clients, [])

/-- The dialogues after some moves, and their exchanges in order. -/
def interleaved (moves : List (Move Q R A)) : List (Dialogue Q R A) × List (ℕ × Q × R) := logged move [] moves

/-- The exchanges of one dialogue. -/
def own (log : List (ℕ × Q × R)) (i : ℕ) : List (Q × R) := (log.filter fun e => e.1 = i).map Prod.snd

variable {clients : List (Dialogue Q R A)} {log : List (ℕ × Q × R)} {i j : ℕ} {q : Q} {r : R}

theorem own_concat_self : own (log ++ [(i, q, r)]) i = own log i ++ [(q, r)] := by
  unfold own
  rw [List.filter_append, List.map_append]
  simp

theorem own_concat_of_ne (h : i ≠ j) : own (log ++ [(i, q, r)]) j = own log j := by
  unfold own
  rw [List.filter_append, List.map_append]
  simp [h]

theorem own_eq_nil (h : ∀ e ∈ log, e.1 ≠ i) : own log i = [] := by
  unfold own
  rw [List.map_eq_nil_iff, List.filter_eq_nil_iff]
  intro e he
  simpa using h e he

/-- What a move does: a dialogue joins, one of them has an exchange, or nothing happens. -/
theorem move_cases (clients : List (Dialogue Q R A)) (m : Move Q R A) :
    (∃ d, m = .arrive d ∧ move clients m = (clients ++ [d], [])) ∨
    (∃ i q next r, clients[i]? = some (.ask q next) ∧ move clients m = (clients.set i (next r), [(i, q, r)])) ∨
    move clients m = (clients, []) := by
  cases m with
  | arrive d => exact Or.inl ⟨d, rfl, rfl⟩
  | reply i r =>
      right
      unfold move
      dsimp only
      cases hd : clients[i]? with
      | none => exact Or.inr rfl
      | some d =>
          cases d with
          | done a => exact Or.inr rfl
          | ask q next => exact Or.inl ⟨i, q, next, r, hd, rfl⟩

/-! ## Local rules -/

section Local
variable (J : List (Q × R) → Dialogue Q R A → Prop)

/-- Where an interleaving of dialogues that keep `J` stands: so do those there are, and so did the one of each
    exchange, with its own exchanges up to then. -/
structure Standing (clients : List (Dialogue Q R A)) (log : List (ℕ × Q × R)) : Prop where
  known : ∀ e ∈ log, e.1 < clients.length
  ahead : ∀ (i : ℕ) (d : Dialogue Q R A), clients[i]? = some d → J (own log i) d
  behind : ∀ before e after, log = before ++ e :: after → ∃ next, J (own before e.1) (.ask e.2.1 next)

variable {J}

theorem Standing.arrive (h : Standing J clients log) {d : Dialogue Q R A} (hd : J [] d) :
    Standing J (clients ++ [d]) log := by
  refine ⟨?_, ?_, h.behind⟩
  · intro e he
    rw [List.length_append]
    exact (h.known e he).trans_le (Nat.le_add_right _ _)
  · intro i d' hi
    rw [List.getElem?_append] at hi
    split at hi
    · exact h.ahead i d' hi
    · rename_i hlen
      obtain ⟨hz, rfl⟩ : i - clients.length = 0 ∧ d = d' := by simpa [List.getElem?_singleton] using hi
      have hi : i = clients.length := by omega
      rw [hi, own_eq_nil fun e he => (h.known e he).ne]
      exact hd

theorem Standing.exchange (h : Standing J clients log) {next : R → Dialogue Q R A}
    (hi : clients[i]? = some (.ask q next)) {r : R} (hnext : J (own log i ++ [(q, r)]) (next r)) :
    Standing J (clients.set i (next r)) (log ++ [(i, q, r)]) := by
  have hlt : i < clients.length := (List.getElem?_eq_some_iff.mp hi).1
  refine ⟨?_, ?_, ?_⟩
  · intro e he
    rw [List.length_set]
    rcases List.mem_append.mp he with he | he
    · exact h.known e he
    · rw [List.mem_singleton.mp he]
      exact hlt
  · intro j d hj
    by_cases hij : i = j
    · subst hij
      obtain rfl : next r = d := by simpa [List.getElem?_set_self hlt] using hj
      rw [own_concat_self]
      exact hnext
    · rw [List.getElem?_set_ne hij] at hj
      rw [own_concat_of_ne hij]
      exact h.ahead j d hj
  · intro before e after heq
    rcases List.eq_nil_or_concat after with rfl | ⟨init, last, rfl⟩
    · obtain ⟨rfl, he⟩ := List.append_inj' heq rfl
      obtain rfl := (List.cons.inj he).1
      exact ⟨next, h.ahead i _ hi⟩
    · rw [List.concat_eq_append, ← List.cons_append, ← List.append_assoc] at heq
      exact h.behind before e init (List.append_inj_left' heq rfl)

theorem interleaved_concat (moves : List (Move Q R A)) (m : Move Q R A) :
    interleaved (moves ++ [m])
      = ((move (interleaved moves).1 m).1, (interleaved moves).2 ++ (move (interleaved moves).1 m).2) := by
  unfold interleaved logged
  rw [List.foldl_append]
  rfl

/-- **Local rule.** What every dialogue starts with and keeps over its own exchanges, wherever the replies lead, it
    keeps among others. -/
theorem interleaved_local {moves : List (Move Q R A)} (harrive : ∀ d, .arrive d ∈ moves → J [] d)
    (hstep : ∀ l q next r, J l (.ask q next) → J (l ++ [(q, r)]) (next r)) :
    Standing J (interleaved moves).1 (interleaved moves).2 := by
  induction moves using List.reverseRecOn with
  | nil => exact ⟨by simp [interleaved, logged], by simp [interleaved, logged], by simp [interleaved, logged]⟩
  | append_singleton moves m ih =>
      have hstanding := ih fun d hd => harrive d (List.mem_append_left _ hd)
      rw [interleaved_concat]
      rcases move_cases (interleaved moves).1 m with ⟨d, rfl, hm⟩ | ⟨i, q, next, r, hi, hm⟩ | hm
      · rw [hm, List.append_nil]
        exact hstanding.arrive (harrive d (by simp))
      · rw [hm]
        exact hstanding.exchange hi (hstep _ _ _ _ (hstanding.ahead i _ hi))
      · rw [hm, List.append_nil]
        exact hstanding

end Local

/-! ## Origins -/

/-- The dialogues that came, in order. -/
def arrivals (moves : List (Move Q R A)) : List (Dialogue Q R A) :=
  moves.filterMap fun
    | .arrive d => some d
    | .reply _ _ => none

theorem length_interleaved (moves : List (Move Q R A)) : (interleaved moves).1.length = (arrivals moves).length := by
  induction moves using List.reverseRecOn with
  | nil => rfl
  | append_singleton moves m ih =>
      have hadd : arrivals (moves ++ [m]) = arrivals moves ++ arrivals [m] := List.filterMap_append
      rw [interleaved_concat, hadd, List.length_append, ← ih]
      cases m with
      | arrive d => exact List.length_append
      | reply i r =>
          rcases move_cases (interleaved moves).1 (.reply i r) with ⟨d, hd, -⟩ | ⟨i, q, next, r, hi, hm⟩ | hm
          · exact absurd hd (by simp)
          · rw [hm]
            exact List.length_set
          · rw [hm]
            rfl

/-- **Origins.** Each dialogue is what its own exchanges have left of the one that came in its place. -/
theorem interleaved_origin (moves : List (Move Q R A)) {d : Dialogue Q R A}
    (h : (interleaved moves).1[i]? = some d) :
    ∃ d₀ : Dialogue Q R A, (arrivals moves)[i]? = some d₀ ∧ d₀.Leaves (own (interleaved moves).2 i) d := by
  induction moves using List.reverseRecOn generalizing i d with
  | nil => exact absurd h (by simp [interleaved, logged])
  | append_singleton moves m ih =>
      have hknown : ∀ e ∈ (interleaved moves).2, e.1 < (interleaved moves).1.length :=
        (interleaved_local (J := fun _ _ => True) (fun _ _ => trivial) fun _ _ _ _ _ => trivial).known
      have hadd : arrivals (moves ++ [m]) = arrivals moves ++ arrivals [m] := List.filterMap_append
      have hearlier : ∀ {i d}, (interleaved moves).1[i]? = some d →
          ∃ d₀ : Dialogue Q R A, (arrivals (moves ++ [m]))[i]? = some d₀ ∧
            d₀.Leaves (own (interleaved moves).2 i) d := by
        intro i d hi
        obtain ⟨d₀, hd₀, hleaves⟩ := ih hi
        refine ⟨d₀, ?_, hleaves⟩
        rw [hadd, List.getElem?_append_left (List.getElem?_eq_some_iff.mp hd₀).1]
        exact hd₀
      rw [interleaved_concat] at h ⊢
      rcases move_cases (interleaved moves).1 m with ⟨a, rfl, hm⟩ | ⟨j, q, next, r, hj, hm⟩ | hm
      · rw [hm] at h ⊢
        dsimp only at h ⊢
        rw [List.append_nil]
        rw [List.getElem?_append] at h
        split at h
        · exact hearlier h
        · -- the dialogue that has just come
          rename_i hlen
          obtain ⟨hz, rfl⟩ : i - (interleaved moves).1.length = 0 ∧ a = d := by simpa [List.getElem?_singleton] using h
          have hi : i = (interleaved moves).1.length := by omega
          refine ⟨a, ?_, ?_⟩
          · rw [hadd, hi, length_interleaved, List.getElem?_append_right le_rfl, Nat.sub_self]
            rfl
          · rw [hi, own_eq_nil fun e he => (hknown e he).ne]
            exact .start
      · rw [hm] at h ⊢
        dsimp only at h ⊢
        by_cases hij : j = i
        · subst hij
          have hlt : j < (interleaved moves).1.length := (List.getElem?_eq_some_iff.mp hj).1
          obtain rfl : next r = d := by simpa [List.getElem?_set_self hlt] using h
          obtain ⟨d₀, hd₀, hleaves⟩ := hearlier hj
          rw [own_concat_self]
          exact ⟨d₀, hd₀, hleaves.ask r⟩
        · rw [List.getElem?_set_ne hij] at h
          rw [own_concat_of_ne hij]
          exact hearlier h
      · rw [hm] at h ⊢
        dsimp only at h ⊢
        rw [List.append_nil]
        exact hearlier h

/-! ## Effects and answers -/

section Count
variable (hit : Q → R → Bool) (ends : A → Bool)

/-- The effect comes with the answer: an exchange has it exactly when it ends the dialogue with such an answer. -/
def Settles (_ : Option (Q × R)) (q : Q) (r : R) (d : Dialogue Q R A) : Prop := hit q r = d.answer?.any ends

/-- The dialogues that are over with such an answer. -/
def settled (clients : List (Dialogue Q R A)) : ℕ := clients.countP fun d => d.answer?.any ends

variable {hit ends}

theorem settled_set {next : R → Dialogue Q R A} (hi : clients[i]? = some (.ask q next)) (d : Dialogue Q R A) :
    settled ends (clients.set i d) = settled ends clients + if d.answer?.any ends then 1 else 0 := by
  obtain ⟨hlt, hget⟩ := List.getElem?_eq_some_iff.mp hi
  unfold settled
  rw [List.countP_set hlt, hget]
  have hask : ((Dialogue.ask q next).answer?.any ends) = false := rfl
  simp [hask]

/-- **Effects are counted by answers**: as many exchanges have the effect as dialogues are over with its answer. -/
theorem interleaved_count {moves : List (Move Q R A)}
    (hall : ∀ d, .arrive d ∈ moves → d.Always (Settles hit ends) none ∧ d.answer?.any ends = false) :
    ((interleaved moves).2.countP fun e => hit e.2.1 e.2.2) = settled ends (interleaved moves).1 := by
  induction moves using List.reverseRecOn with
  | nil => rfl
  | append_singleton moves m ih =>
      have hbefore := fun d hd => hall d (List.mem_append_left [m] hd)
      have hcount := ih hbefore
      have hstanding := interleaved_local (J := fun l d => d.Always (Settles hit ends) l.getLast?)
        (fun d hd => (hbefore d hd).1) fun l q next r h => (h.step r).2
      rw [interleaved_concat]
      rcases move_cases (interleaved moves).1 m with ⟨d, rfl, hm⟩ | ⟨i, q, next, r, hi, hm⟩ | hm
      · have hd := (hall d (by simp)).2
        rw [hm, List.append_nil, hcount]
        unfold settled
        rw [List.countP_append]
        simp [hd]
      · have hsettles : hit q r = (next r).answer?.any ends := (hstanding.ahead i _ hi r).1
        rw [hm, List.countP_append, hcount, settled_set hi, ← hsettles]
        simp
      · rw [hm, List.append_nil]
        exact hcount

end Count

end Interleaving

end Lib
