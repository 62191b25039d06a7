import EdgeCausal.Graph.Worklist
import Mathlib.Data.List.Nodup
import Mathlib.Data.List.Induction
import Mathlib.Data.Nat.Find
import Mathlib.Tactic.Linarith

/-!
# `Graph.FirstWalk` — breadth-first search that keeps the first walk to each node

A first-in first-out search over items, each with a key: an item leads to others, and one is met when its key
has not been met before. With a bound on the keys the search runs dry, and what it has met is then described by
one equation (`Searched`): the items met are the first of each key in what they lead to, in order.

For the walks of a graph (`Survivor`, cut off where they are no longer `alive`) the search keeps, for each node,
the first walk found. That walk is simple (`WalksSearched.simple`). A *first walk* is one no prefix of which
can be shortened; where first walks are as good as any other, the search finds one to every node that can be
reached (`WalksSearched.finds`), and where a first walk takes the first way on at each node, it is the one
found (`WalksSearched.leftmost`).
-/

namespace Lib

universe u v w

/-! ## Meeting items -/

section Search
variable {α : Type u} {κ : Type v} [DecidableEq κ] (key : α → κ) (expand : α → List α)

/-- Append an item unless its key has been met. -/
def meet (met : List α) (c : α) : List α := if key c ∈ met.map key then met else met ++ [c]

/-- Meet what an item leads to; what is newly met is queued. -/
def explore (a : α) (met : List α) : List α × List α :=
  let met' := (expand a).foldl (meet key) met
  (met', met'.drop met.length)

/-- The items met by a search from `root`, in order. -/
def search (n : ℕ) (root : α) : List α := drain (explore key expand) n [root] [root]

variable {key expand} {met cs : List α} {a b c root : α}

/-- Meeting candidates appends some of them. -/
theorem exists_foldl_meet_eq (key : α → κ) (met cs : List α) :
    ∃ new, cs.foldl (meet key) met = met ++ new ∧ ∀ c ∈ new, c ∈ cs := by
  refine List.foldlRecOn (motive := fun met' => ∃ new, met' = met ++ new ∧ ∀ c ∈ new, c ∈ cs) cs _
    ⟨[], by simp, by simp⟩ ?_
  rintro met' ⟨new, rfl, hnew⟩ c hc
  unfold meet
  split
  · exact ⟨new, rfl, hnew⟩
  · refine ⟨new ++ [c], by simp, ?_⟩
    intro d hd
    rcases List.mem_append.mp hd with hd | hd
    · exact hnew d hd
    · exact List.mem_singleton.mp hd ▸ hc

/-- What has been met stays in place. -/
theorem prefix_foldl_meet (key : α → κ) (met cs : List α) : met <+: cs.foldl (meet key) met := by
  obtain ⟨new, hnew, -⟩ := exists_foldl_meet_eq key met cs
  rw [hnew]
  exact List.prefix_append met new

theorem mem_foldl_meet (h : c ∈ cs.foldl (meet key) met) : c ∈ met ∨ c ∈ cs := by
  obtain ⟨new, hnew, hcs⟩ := exists_foldl_meet_eq key met cs
  rw [hnew, List.mem_append] at h
  exact h.imp_right (hcs c)

theorem foldl_meet_nodup (h : (met.map key).Nodup) : ((cs.foldl (meet key) met).map key).Nodup := by
  refine List.foldlRecOn (motive := fun met' : List α => (met'.map key).Nodup) cs _ h ?_
  intro met' ih c _
  unfold meet
  split
  · exact ih
  · rename_i hnew
    rw [List.map_append]
    exact List.Nodup.append ih (List.nodup_singleton _) (by simpa using hnew)

/-- Every candidate's key is met in the end. -/
theorem exists_foldl_meet (key : α → κ) (met : List α) (h : c ∈ cs) :
    ∃ b ∈ cs.foldl (meet key) met, key b = key c := by
  obtain ⟨before, after, rfl⟩ := List.append_of_mem h
  rw [List.foldl_append, List.foldl_cons]
  have hmeet : ∃ b ∈ meet key (before.foldl (meet key) met) c, key b = key c := by
    unfold meet
    split
    · rename_i hold
      exact List.mem_map.mp hold
    · exact ⟨c, by simp, rfl⟩
  obtain ⟨b, hb, hkey⟩ := hmeet
  exact ⟨b, (prefix_foldl_meet key _ after).subset hb, hkey⟩

/-! ## The search -/

/-- A search from `root` that has explored `done` and queued `queue`: together they are the first of each key in
    what `done` leads to; they stand by rank, within one rank of the queue, and nothing that `done` leads to
    has been met at a higher rank. -/
structure Searched (key : α → κ) (expand : α → List α) (rank : α → ℕ) (root : α)
    (done queue : List α) : Prop where
  met : done ++ queue = (done.flatMap expand).foldl (meet key) [root]
  sorted : (done ++ queue).Pairwise fun a b => rank a ≤ rank b
  window : ∀ a ∈ queue, ∀ b ∈ done ++ queue, rank b ≤ rank a + 1
  lower : ∀ a ∈ done, ∀ c ∈ expand a, ∃ b ∈ done ++ queue, key b = key c ∧ rank b ≤ rank c

variable {rank : α → ℕ} {done queue : List α}

theorem Searched.init (key : α → κ) (expand : α → List α) (rank : α → ℕ) (root : α) :
    Searched key expand rank root [] [root] where
  met := rfl
  sorted := List.pairwise_singleton _ root
  window := by
    intro a ha b hb
    obtain rfl := List.mem_singleton.mp ha
    obtain rfl := List.mem_singleton.mp hb
    exact Nat.le_succ _
  lower := by simp

/-- **Step.** Exploring the front of the queue. -/
theorem Searched.step (hrank : ∀ a, ∀ c ∈ expand a, rank c = rank a + 1)
    (h : Searched key expand rank root done (a :: queue)) {new : List α}
    (hnew : (expand a).foldl (meet key) (done ++ a :: queue) = (done ++ a :: queue) ++ new)
    (hsub : ∀ c ∈ new, c ∈ expand a) :
    Searched key expand rank root (done ++ [a]) (queue ++ new) := by
  have hassoc : done ++ [a] ++ (queue ++ new) = (done ++ a :: queue) ++ new := by simp
  have hwin := h.window a List.mem_cons_self
  have hnewrank : ∀ c ∈ new, rank c = rank a + 1 := fun c hc => hrank a c (hsub c hc)
  -- nothing met so far, old or new, is more than one rank above the item explored
  have hmet : ∀ b ∈ (done ++ a :: queue) ++ new, rank b ≤ rank a + 1 := by
    intro b hb
    rcases List.mem_append.mp hb with hb | hb
    · exact hwin b hb
    · exact (hnewrank b hb).le
  have hqueue : ∀ b ∈ queue, rank a ≤ rank b :=
    (List.pairwise_cons.mp (List.pairwise_append.mp h.sorted).2.1).1
  refine ⟨?_, ?_, ?_, ?_⟩
  · rw [hassoc, List.flatMap_append, List.foldl_append, ← h.met]
    simpa using hnew.symm
  · rw [hassoc, List.pairwise_append]
    refine ⟨h.sorted, ?_, ?_⟩
    · refine List.pairwise_iff_forall_sublist.mpr ?_
      intro b c hbc
      rw [hnewrank b (hbc.subset (by simp)), hnewrank c (hbc.subset (by simp))]
    · intro b hb c hc
      rw [hnewrank c hc]
      exact hwin b hb
  · intro b hb c hc
    have hle := hmet c (hassoc ▸ hc)
    rcases List.mem_append.mp hb with hb | hb
    · have := hqueue b hb
      omega
    · have := hnewrank b hb
      omega
  · intro b hb c hc
    rcases List.mem_append.mp hb with hb | hb
    · obtain ⟨d, hd, hkey, hle⟩ := h.lower b hb c hc
      exact ⟨d, hassoc ▸ List.mem_append_left new hd, hkey, hle⟩
    · obtain rfl := List.mem_singleton.mp hb
      obtain ⟨d, hd, hkey⟩ := exists_foldl_meet key (done ++ b :: queue) hc
      rw [hnew] at hd
      refine ⟨d, hassoc ▸ hd, hkey, ?_⟩
      rw [hrank b c hc]
      exact hmet d hd

theorem Searched.nodup (h : Searched key expand rank root done queue) : ((done ++ queue).map key).Nodup := by
  rw [h.met]
  exact foldl_meet_nodup (by simp)

/-- What holds of queue and items met throughout a search whose keys are among `nodes`. -/
def SearchInv (key : α → κ) (expand : α → List α) (rank : α → ℕ) (root : α) (nodes : List κ)
    (queue met : List α) : Prop :=
  (∃ done, met = done ++ queue ∧ Searched key expand rank root done queue) ∧ ∀ b ∈ met, key b ∈ nodes

/-- Exploring keeps the invariant, and each item it queues takes one of the keys not met yet. -/
theorem SearchInv.step (hrank : ∀ a, ∀ c ∈ expand a, rank c = rank a + 1) {nodes : List κ}
    (hnodes : ∀ a, ∀ c ∈ expand a, key c ∈ nodes) (h : SearchInv key expand rank root nodes (a :: queue) met) :
    SearchInv key expand rank root nodes (queue ++ (explore key expand a met).2) (explore key expand a met).1 ∧
      (nodes.length - (explore key expand a met).1.length) + (explore key expand a met).2.length
        ≤ nodes.length - met.length := by
  obtain ⟨⟨done, rfl, hsearched⟩, hkeys⟩ := h
  obtain ⟨new, hnew, hsub⟩ := exists_foldl_meet_eq key (done ++ a :: queue) (expand a)
  have hexplore : explore key expand a (done ++ a :: queue) = ((done ++ a :: queue) ++ new, new) := by
    unfold explore
    rw [hnew]
    dsimp only
    rw [List.drop_left]
  have hnext := hsearched.step hrank hnew hsub
  have hassoc : (done ++ a :: queue) ++ new = done ++ [a] ++ (queue ++ new) := by simp
  have hkeys' : ∀ b ∈ (done ++ a :: queue) ++ new, key b ∈ nodes := by
    intro b hb
    rcases List.mem_append.mp hb with hb | hb
    · exact hkeys b hb
    · exact hnodes a b (hsub b hb)
  rw [hexplore]
  refine ⟨⟨⟨done ++ [a], hassoc, hnext⟩, hkeys'⟩, ?_⟩
  -- distinct keys among `nodes` are at most as many
  have hle : (((done ++ a :: queue) ++ new).map key).length ≤ nodes.length := by
    apply List.Subperm.length_le
    apply List.subperm_of_subset
    · rw [hassoc]
      exact hnext.nodup
    · intro k hk
      obtain ⟨b, hb, rfl⟩ := List.mem_map.mp hk
      exact hkeys' b hb
  rw [List.length_map, List.length_append] at hle
  dsimp only
  rw [List.length_append]
  omega

theorem SearchInv.init (expand : α → List α) (rank : α → ℕ) {nodes : List κ} (hroot : key root ∈ nodes) :
    SearchInv key expand rank root nodes [root] [root] := by
  refine ⟨⟨[], rfl, Searched.init key expand rank root⟩, ?_⟩
  intro b hb
  obtain rfl := List.mem_singleton.mp hb
  exact hroot

/-- **The search runs dry** when every key it can meet is one of `nodes`. -/
theorem searched_search (hrank : ∀ a, ∀ c ∈ expand a, rank c = rank a + 1) {nodes : List κ}
    (hroot : key root ∈ nodes) (hnodes : ∀ a, ∀ c ∈ expand a, key c ∈ nodes) {n : ℕ} (hn : nodes.length ≤ n) :
    Searched key expand rank root (search key expand n root) [] := by
  have hpos : 0 < nodes.length := List.length_pos_of_mem hroot
  have hdry : SearchInv key expand rank root nodes [] (search key expand n root) := by
    apply drain_runs_dry (R := fun met => nodes.length - met.length)
    · exact fun a q met h => h.step hrank hnodes
    · simp only [List.length_singleton]
      omega
    · exact SearchInv.init expand rank hroot
  obtain ⟨⟨done, heq, hsearched⟩, -⟩ := hdry
  rw [List.append_nil] at heq
  rw [heq]
  exact hsearched

/-- The search without a budget comes to an end, on the same items. -/
theorem search_terminates (hrank : ∀ a, ∀ c ∈ expand a, rank c = rank a + 1) {nodes : List κ}
    (hroot : key root ∈ nodes) (hnodes : ∀ a, ∀ c ∈ expand a, key c ∈ nodes) {n : ℕ} (hn : nodes.length ≤ n) :
    ∃ k, (drainStep (explore key expand))^[k] ([root], [root]) = ([], search key expand n root) := by
  have hpos : 0 < nodes.length := List.length_pos_of_mem hroot
  apply drain_terminates_room (J := SearchInv key expand rank root nodes)
    (R := fun met => nodes.length - met.length)
  · exact fun a q met h => h.step hrank hnodes
  · simp only [List.length_singleton]
    omega
  · exact SearchInv.init expand rank hroot

/-! ## A finished search -/

section Finished
variable {met : List α} (h : Searched key expand rank root met [])
include h

/-- The root is met first. -/
theorem Searched.starts : [root] <+: met := by
  have hmet := h.met
  rw [List.append_nil] at hmet
  rw [hmet]
  exact prefix_foldl_meet key [root] _

/-- Every other item was led to by one met. -/
theorem Searched.traced (hb : b ∈ met) : b = root ∨ ∃ a ∈ met, b ∈ expand a := by
  have hmet := h.met
  rw [List.append_nil] at hmet
  rw [hmet] at hb
  rcases mem_foldl_meet hb with hb | hb
  · exact Or.inl (List.mem_singleton.mp hb)
  · exact Or.inr (List.mem_flatMap.mp hb)

theorem Searched.eq_of_key (ha : a ∈ met) (hb : b ∈ met) (hkey : key a = key b) : a = b := by
  have hnodup := h.nodup
  rw [List.append_nil] at hnodup
  exact List.inj_on_of_nodup_map hnodup ha hb hkey

/-- **The leftmost branch.** Where an item is the first of its rank and the first it leads to is met at no lower
    rank otherwise, that one is the first of its own rank. -/
theorem Searched.leftmost (hrank : ∀ a, ∀ c ∈ expand a, rank c = rank a + 1) {before after cs : List α}
    (hsplit : met = before ++ a :: after) (hbefore : ∀ b ∈ before, rank b < rank a)
    (hfirst : expand a = c :: cs)
    (hnew : ∀ b ∈ met, key b = key c → rank a < rank b) (hroot : rank root ≤ rank a) :
    ∃ before' after', met = before' ++ c :: after' ∧ ∀ b ∈ before', rank b < rank c := by
  have hmet := h.met
  rw [List.append_nil] at hmet
  -- what is met before `a` is explored stands at or below its rank
  have hlow : ∀ b ∈ (before.flatMap expand).foldl (meet key) [root], rank b ≤ rank a := by
    intro b hb
    rcases mem_foldl_meet hb with hb | hb
    · exact (List.mem_singleton.mp hb) ▸ hroot
    · obtain ⟨d, hd, hbd⟩ := List.mem_flatMap.mp hb
      have h1 := hbefore d hd
      have h2 := hrank d b hbd
      omega
  have hstream : met.flatMap expand = before.flatMap expand ++ c :: (cs ++ after.flatMap expand) := by
    rw [hsplit, List.flatMap_append, List.flatMap_cons, hfirst, List.cons_append]
  have hfold : (c :: (cs ++ after.flatMap expand)).foldl (meet key)
    ((before.flatMap expand).foldl (meet key) [root])
      = met := by
    rw [← List.foldl_append, ← hstream, ← hmet]
  set seen := (before.flatMap expand).foldl (meet key) [root]
  have hpre : seen <+: met := by
    rw [← hfold]
    exact prefix_foldl_meet key _ _
  have hmeet : meet key seen c = seen ++ [c] := by
    apply if_neg
    intro hold
    obtain ⟨b, hb, hkey⟩ := List.mem_map.mp hold
    exact absurd (hnew b (hpre.subset hb) hkey) (not_lt.mpr (hlow b hb))
  rw [List.foldl_cons, hmeet] at hfold
  obtain ⟨after', hafter⟩ := prefix_foldl_meet key (seen ++ [c]) (cs ++ after.flatMap expand)
  refine ⟨seen, after', ?_, ?_⟩
  · rw [← hfold, ← hafter]
    simp
  · intro b hb
    have hle := hlow b hb
    have hc := hrank a c (by rw [hfirst]; exact List.mem_cons_self)
    omega

end Finished

end Search

/-! ## Walks of a graph -/

section Walks
variable {V : Type u} {L : Type v}

/-- Where a walk from `root` ends; a walk is the list of its legs, each with the node it leads to. -/
def walkEnd (root : V) (walk : List (V × L)) : V := (walk.getLast?.map Prod.fst).getD root

@[simp] theorem walkEnd_nil (root : V) : walkEnd root ([] : List (V × L)) = root := rfl

@[simp] theorem walkEnd_concat (root : V) (walk : List (V × L)) (o : V × L) :
    walkEnd root (walk ++ [o]) = o.1 := by
  simp [walkEnd]

/-- A node on a walk is where a prefix of it ends. -/
theorem exists_prefix_end {root v : V} {walk : List (V × L)} (h : v ∈ root :: walk.map Prod.fst) :
    ∃ pre, pre <+: walk ∧ walkEnd root pre = v := by
  induction walk using List.reverseRecOn with
  | nil =>
      obtain rfl : v = root := by simpa using h
      exact ⟨[], List.prefix_refl [], rfl⟩
  | append_singleton walk o ih =>
      rw [List.map_append, ← List.cons_append, List.mem_append] at h
      rcases h with h | h
      · obtain ⟨pre, hpre, hend⟩ := ih h
        exact ⟨pre, hpre.trans (List.prefix_append walk [o]), hend⟩
      · obtain rfl : v = o.1 := by simpa using h
        exact ⟨walk ++ [o], List.prefix_refl _, walkEnd_concat root walk o⟩

/-- A walk along the legs `out` that is alive at every node it comes to. -/
inductive Survivor (out : V → List (V × L)) (alive : List (V × L) → Prop) (root : V) : List (V × L) → Prop where
  | start : Survivor out alive root []
  | step {walk : List (V × L)} {o : V × L} (h : Survivor out alive root walk)
      (ho : o ∈ out (walkEnd root walk)) (halive : alive (walk ++ [o])) :
      Survivor out alive root (walk ++ [o])

/-- No surviving walk to the same node has fewer legs. -/
structure Shortest (out : V → List (V × L)) (alive : List (V × L) → Prop) (root : V) (walk : List (V × L)) :
    Prop where
  survives : Survivor out alive root walk
  le : ∀ walk', Survivor out alive root walk' → walkEnd root walk' = walkEnd root walk →
    walk.length ≤ walk'.length

/-- No prefix of the walk can be shortened. -/
def FirstWalk (out : V → List (V × L)) (alive : List (V × L) → Prop) (root : V) (walk : List (V × L)) : Prop :=
  ∀ pre, pre <+: walk → Shortest out alive root pre

variable {out : V → List (V × L)} {alive : List (V × L) → Prop} {root : V} {walk pre : List (V × L)} {o : V × L}

theorem Survivor.concat_inv (h : Survivor out alive root (walk ++ [o])) :
    Survivor out alive root walk ∧ o ∈ out (walkEnd root walk) ∧ alive (walk ++ [o]) := by
  generalize hw : walk ++ [o] = w at h
  cases h with
  | start => exact absurd hw (by simp)
  | step h ho halive =>
      obtain ⟨rfl, hlast⟩ := List.append_inj' hw rfl
      obtain rfl := (List.cons.inj hlast).1
      exact ⟨h, ho, halive⟩

/-- A surviving walk is alive, if a walk of no leg is. -/
theorem Survivor.alive_end (h : Survivor out alive root walk) (hnil : alive []) : alive walk := by
  cases h with
  | start => exact hnil
  | step _ _ halive => exact halive

theorem Shortest.nil : Shortest out alive root [] := ⟨Survivor.start, fun _ _ _ => Nat.zero_le _⟩

theorem exists_shortest (h : Survivor out alive root walk) :
    ∃ w, Shortest out alive root w ∧ walkEnd root w = walkEnd root walk ∧ w.length ≤ walk.length := by
  classical
  have hex : ∃ n w, Survivor out alive root w ∧ walkEnd root w = walkEnd root walk ∧ w.length = n :=
    ⟨_, walk, h, rfl, rfl⟩
  obtain ⟨w, hw, hend, hlen⟩ := Nat.find_spec hex
  refine ⟨w, ⟨hw, ?_⟩, hend, ?_⟩
  · intro w' hw' hend'
    rw [hlen]
    exact Nat.find_min' hex ⟨w', hw', hend'.trans hend, rfl⟩
  · rw [hlen]
    exact Nat.find_min' hex ⟨walk, h, rfl, rfl⟩

theorem FirstWalk.nil : FirstWalk out alive root [] := by
  intro pre hpre
  rw [List.prefix_nil.mp hpre]
  exact Shortest.nil

theorem FirstWalk.concat (h : FirstWalk out alive root walk) (hs : Shortest out alive root (walk ++ [o])) :
    FirstWalk out alive root (walk ++ [o]) := by
  intro pre hpre
  rcases List.prefix_concat_iff.mp hpre with rfl | hpre
  · exact hs
  · exact h pre hpre

theorem FirstWalk.shortest (h : FirstWalk out alive root walk) : Shortest out alive root walk :=
  h walk (List.prefix_refl walk)

theorem FirstWalk.initial (h : FirstWalk out alive root walk) (hpre : pre <+: walk) :
    FirstWalk out alive root pre := fun p hp => h p (hp.trans hpre)

theorem Survivor.initial (h : Survivor out alive root walk) (hpre : pre <+: walk) :
    Survivor out alive root pre := by
  induction h with
  | start =>
      rw [List.prefix_nil.mp hpre]
      exact Survivor.start
  | step h ho halive ih =>
      rcases List.prefix_concat_iff.mp hpre with rfl | hpre
      · exact Survivor.step h ho halive
      · exact ih hpre

/-- A first walk comes to no node twice: each prefix is a shortest walk to its own end. -/
theorem FirstWalk.simple (h : FirstWalk out alive root walk) : (root :: walk.map Prod.fst).Nodup := by
  induction walk using List.reverseRecOn with
  | nil => simp
  | append_singleton walk o ih =>
      have hpre : walk <+: walk ++ [o] := List.prefix_append walk [o]
      rw [List.map_append, ← List.cons_append]
      refine List.Nodup.append (ih (h.initial hpre)) (List.nodup_singleton _) ?_
      intro v hv hvo
      obtain rfl : v = o.1 := by simpa using hvo
      obtain ⟨p, hp, hend⟩ := exists_prefix_end hv
      have hshort := h.shortest.le p (h.shortest.survives.initial (hp.trans hpre))
        (by rw [hend, walkEnd_concat])
      have hlen := hp.length_le
      rw [List.length_append, List.length_singleton] at hshort
      omega

/-! ### Graphs with the same legs -/

section Congr
variable {out' : V → List (V × L)} (hout : ∀ n o, o ∈ out' n ↔ o ∈ out n)
include hout

theorem Survivor.congr : Survivor out' alive root walk ↔ Survivor out alive root walk := by
  constructor
  · intro h
    induction h with
    | start => exact Survivor.start
    | step _ ho halive ih => exact Survivor.step ih ((hout _ _).mp ho) halive
  · intro h
    induction h with
    | start => exact Survivor.start
    | step _ ho halive ih => exact Survivor.step ih ((hout _ _).mpr ho) halive

theorem Shortest.congr : Shortest out' alive root walk ↔ Shortest out alive root walk := by
  constructor
  · intro h
    refine ⟨(Survivor.congr hout).mp h.survives, ?_⟩
    intro w hw
    exact h.le w ((Survivor.congr hout).mpr hw)
  · intro h
    refine ⟨(Survivor.congr hout).mpr h.survives, ?_⟩
    intro w hw
    exact h.le w ((Survivor.congr hout).mp hw)

theorem FirstWalk.congr : FirstWalk out' alive root walk ↔ FirstWalk out alive root walk :=
  forall₂_congr fun _ _ => Shortest.congr hout

end Congr

/-! ## Searching the walks -/

variable [DecidablePred alive]

/-- The walks one leg longer that are still alive. -/
def ways (out : V → List (V × L)) (alive : List (V × L) → Prop) [DecidablePred alive] (root : V)
    (walk : List (V × L)) : List (List (V × L)) :=
  ((out (walkEnd root walk)).map fun o => walk ++ [o]).filter fun w => alive w

theorem mem_ways {w : List (V × L)} :
    w ∈ ways out alive root walk ↔ ∃ o ∈ out (walkEnd root walk), alive (walk ++ [o]) ∧ w = walk ++ [o] := by
  unfold ways
  rw [List.mem_filter, List.mem_map]
  constructor
  · rintro ⟨⟨o, ho, rfl⟩, halive⟩
    exact ⟨o, ho, by simpa using halive, rfl⟩
  · rintro ⟨o, ho, halive, rfl⟩
    exact ⟨⟨o, ho, rfl⟩, by simpa using halive⟩

theorem length_ways (walk : List (V × L)) : ∀ w ∈ ways out alive root walk, w.length = walk.length + 1 := by
  intro w hw
  obtain ⟨o, -, -, rfl⟩ := mem_ways.mp hw
  simp

variable [DecidableEq V]

/-- The first walk found to each node, in the order they are found. -/
def walkSearch (out : V → List (V × L)) (alive : List (V × L) → Prop) [DecidablePred alive] (n : ℕ) (root : V) :
    List (List (V × L)) :=
  search (walkEnd root) (ways out alive root) n []

/-- A finished search of the walks from `root`. -/
def WalksSearched (out : V → List (V × L)) (alive : List (V × L) → Prop) [DecidablePred alive] (root : V)
    (met : List (List (V × L))) : Prop :=
  Searched (walkEnd root) (ways out alive root) List.length [] met []

theorem walksSearched_walkSearch {nodes : List V} (hroot : root ∈ nodes)
    (hnodes : ∀ v, ∀ o ∈ out v, o.1 ∈ nodes)
    {n : ℕ} (hn : nodes.length ≤ n) : WalksSearched out alive root (walkSearch out alive n root) := by
  apply searched_search length_ways hroot _ hn
  intro walk w hw
  obtain ⟨o, ho, -, rfl⟩ := mem_ways.mp hw
  rw [walkEnd_concat]
  exact hnodes _ o ho

theorem walkSearch_terminates {nodes : List V} (hroot : root ∈ nodes) (hnodes : ∀ v, ∀ o ∈ out v, o.1 ∈ nodes)
    {n : ℕ} (hn : nodes.length ≤ n) :
    ∃ k, (drainStep (explore (walkEnd root) (ways out alive root)))^[k] ([[]], [[]])
      = ([], walkSearch out alive n root) := by
  apply search_terminates length_ways hroot _ hn
  intro walk w hw
  obtain ⟨o, ho, -, rfl⟩ := mem_ways.mp hw
  rw [walkEnd_concat]
  exact hnodes _ o ho

namespace WalksSearched
variable {met : List (List (V × L))} (h : WalksSearched out alive root met)
include h

theorem nil_mem : [] ∈ met := (Searched.starts h).subset List.mem_cons_self

/-- A walk found extends one that was found before. -/
theorem concat_mem (hw : walk ++ [o] ∈ met) :
    walk ∈ met ∧ o ∈ out (walkEnd root walk) ∧ alive (walk ++ [o]) := by
  rcases Searched.traced h hw with hnil | ⟨a, ha, hway⟩
  · exact absurd hnil (by simp)
  · obtain ⟨o', ho', halive, heq⟩ := mem_ways.mp hway
    obtain ⟨rfl, hlast⟩ := List.append_inj' heq rfl
    obtain rfl := (List.cons.inj hlast).1
    exact ⟨ha, ho', halive⟩

theorem prefix_mem (hw : walk ∈ met) (hpre : pre <+: walk) : pre ∈ met := by
  induction walk using List.reverseRecOn with
  | nil => exact (List.prefix_nil.mp hpre) ▸ hw
  | append_singleton walk o ih =>
      rcases List.prefix_concat_iff.mp hpre with rfl | hpre
      · exact hw
      · exact ih (h.concat_mem hw).1 hpre

/-- Every walk found survives. -/
theorem survivor (hw : walk ∈ met) : Survivor out alive root walk := by
  induction walk using List.reverseRecOn with
  | nil => exact Survivor.start
  | append_singleton walk o ih =>
      obtain ⟨hpre, ho, halive⟩ := h.concat_mem hw
      exact Survivor.step (ih hpre) ho halive

theorem eq_of_end {w w' : List (V × L)} (hw : w ∈ met) (hw' : w' ∈ met)
    (hend : walkEnd root w = walkEnd root w') :
    w = w' := Searched.eq_of_key h hw hw' hend

/-- **Every walk found is simple.** -/
theorem simple (hw : walk ∈ met) : (root :: walk.map Prod.fst).Nodup := by
  induction walk using List.reverseRecOn with
  | nil => simp
  | append_singleton walk o ih =>
      have hpre := (h.concat_mem hw).1
      rw [List.map_append, ← List.cons_append]
      refine List.Nodup.append (ih hpre) (List.nodup_singleton _) ?_
      intro v hv hvo
      obtain rfl : v = o.1 := by simpa using hvo
      -- a node the walk has come to before has a walk of its own, which is a proper prefix
      obtain ⟨p, hp, hend⟩ := exists_prefix_end hv
      have heq := h.eq_of_end (h.prefix_mem hpre hp) hw (by rw [hend, walkEnd_concat])
      have hlen := hp.length_le
      rw [heq] at hlen
      simp at hlen

/-- **The search reaches every node that can be reached**, by first walks, where first walks can be continued
    whenever any surviving walk to the same node can. -/
theorem finds (hdom : ∀ w, FirstWalk out alive root w → ∀ w', Survivor out alive root w' →
      walkEnd root w' = walkEnd root w → ∀ o ∈ out (walkEnd root w), alive (w' ++ [o]) → alive (w ++ [o]))
    (hw : Survivor out alive root walk) :
    ∃ w ∈ met, walkEnd root w = walkEnd root walk ∧ FirstWalk out alive root w := by
  -- by induction on the length: the last leg of a shortest walk extends a walk found
  induction hlen : walk.length using Nat.strong_induction_on generalizing walk with
  | _ n ih =>
      obtain ⟨short, hshort, hend, hle⟩ := exists_shortest hw
      rw [← hend]
      rcases List.eq_nil_or_concat short with rfl | ⟨u, o, rfl⟩
      · exact ⟨[], h.nil_mem, rfl, FirstWalk.nil⟩
      · rw [List.concat_eq_append] at hshort hle ⊢
        obtain ⟨hu, ho, halive⟩ := hshort.survives.concat_inv
        rw [List.length_append, List.length_singleton] at hle
        obtain ⟨b, hb, hbend, hbfirst⟩ := ih u.length (by omega) hu rfl
        rw [← hbend] at ho
        have hway : b ++ [o] ∈ ways out alive root b :=
          mem_ways.mpr ⟨o, ho, hdom b hbfirst u hu hbend.symm o ho halive, rfl⟩
        obtain ⟨c, hc, hcend, hclen⟩ := h.lower b hb _ hway
        rw [List.append_nil] at hc
        rw [walkEnd_concat] at hcend
        have hbu := hbfirst.shortest.le u hu hbend.symm
        rw [List.length_append, List.length_singleton] at hclen
        have hcshort : Shortest out alive root c := by
          refine ⟨h.survivor hc, ?_⟩
          intro w' hw' hw'end
          have hmin := hshort.le w' hw' (by rw [hw'end, hcend, walkEnd_concat])
          rw [List.length_append, List.length_singleton] at hmin
          omega
        refine ⟨c, hc, by rw [hcend, walkEnd_concat], ?_⟩
        rcases List.eq_nil_or_concat c with rfl | ⟨d, o', rfl⟩
        · exact FirstWalk.nil
        · -- what the walk found extends is the first walk found to its own end
          rw [List.concat_eq_append] at hc hclen hcshort ⊢
          have hd := (h.concat_mem hc).1
          rw [List.length_append, List.length_singleton] at hclen
          obtain ⟨d', hd', hd'end, hd'first⟩ := ih d.length (by omega) (h.survivor hd) rfl
          obtain rfl := h.eq_of_end hd hd' hd'end.symm
          exact hd'first.concat hcshort

/-- **The leftmost walk.** A first walk that takes the first way on at each node is found, before any other
    walk of its length. -/
theorem leftmost (hfirst : FirstWalk out alive root walk)
    (hleft : ∀ pre o, pre ++ [o] <+: walk → ∃ rest, out (walkEnd root pre) = o :: rest) :
    ∃ before after, met = before ++ walk :: after ∧ ∀ b ∈ before, b.length < walk.length := by
  induction walk using List.reverseRecOn with
  | nil =>
      obtain ⟨after, hafter⟩ := Searched.starts h
      exact ⟨[], after, hafter.symm, by simp⟩
  | append_singleton walk o ih =>
      have hpre : walk <+: walk ++ [o] := List.prefix_append walk [o]
      obtain ⟨before, after, hsplit, hbefore⟩ := ih (hfirst.initial hpre) fun p o' hp =>
        hleft p o' (hp.trans hpre)
      obtain ⟨rest, hrest⟩ := hleft walk o (List.prefix_refl _)
      obtain ⟨-, -, halive⟩ := hfirst.shortest.survives.concat_inv
      have hways : ways out alive root walk
          = (walk ++ [o]) :: ((rest.map fun o => walk ++ [o]).filter fun w => alive w) := by
        unfold ways
        rw [hrest, List.map_cons, List.filter_cons_of_pos (by simpa using halive)]
      refine Searched.leftmost h length_ways hsplit hbefore hways ?_ (Nat.zero_le _)
      intro b hb hend
      have hmin := hfirst.shortest.le b (h.survivor hb) hend
      rw [List.length_append, List.length_singleton] at hmin
      omega

end WalksSearched

end Walks

end Lib
