/-
A walk over a graph with a stack and a set of the nodes pushed so far.

Each node taken off the stack hands out the labels of all its edges, and the node an edge
leads to is pushed unless it was pushed before.  The start node counts as not pushed, so
the walk may come back to it once.

With a step for the start and one for every node that an edge can lead to, it ends with an empty
stack, and then it has handed out the labels of all nodes that can be reached.
-/
import Mathlib

namespace Worklist

open List

variable {K V : Type}

structure State (K V : Type) where
  stack : List K
  added : List K
  out : List V

variable {next : K → List (V × K)} {root : K} {nodes : Finset K}

def Edge (next : K → List (V × K)) (k k' : K) : Prop :=
  ∃ v, (v, k') ∈ next k

/-- The node is the start or can be reached from it. -/
def Reaches (next : K → List (V × K)) : K → K → Prop :=
  Relation.ReflTransGen (Edge next)

/-- The nodes that have been taken off the stack, with what was done for them. -/
structure Progress (next : K → List (V × K)) (root : K) (s : State K V) (popped : List K) : Prop where
  out : s.out = popped.flatMap fun k => (next k).map Prod.fst
  nodes : (popped ++ s.stack).Perm (root :: s.added)
  nodup : s.added.Nodup
  closed : ∀ k ∈ popped, ∀ edge ∈ next k, edge.2 ∈ s.added
  reached : ∀ k ∈ s.added, ∃ k', Reaches next root k' ∧ Edge next k' k

theorem Progress.start (next : K → List (V × K)) (root : K) : Progress next root ⟨[root], [], []⟩ [] :=
  ⟨rfl, .refl _, nodup_nil, by simp, by simp⟩

theorem Progress.reaches {s : State K V} {popped : List K} {k : K}
    (h : Progress next root s popped) (hk : k ∈ popped ++ s.stack) : Reaches next root k := by
  rcases mem_cons.mp (h.nodes.subset hk) with rfl | hmem
  · exact .refl
  · obtain ⟨k', hk', hedge⟩ := h.reached k hmem
    exact hk'.tail hedge

variable [DecidableEq K] {v : V} {fuel : Nat}

/-- One edge: its label is handed out, its target is pushed if it is new. -/
def follow (s : State K V) (edge : V × K) : State K V :=
  if edge.2 ∈ s.added then { s with out := s.out ++ [edge.1] }
  else ⟨edge.2 :: s.stack, edge.2 :: s.added, s.out ++ [edge.1]⟩

/-- At most `fuel` nodes are taken off the stack. -/
def walk (next : K → List (V × K)) : Nat → State K V → State K V
  | 0, s => s
  | fuel + 1, s =>
    match s.stack with
    | [] => s
    | k :: rest => walk next fuel ((next k).foldl follow { s with stack := rest })

def walkFrom (next : K → List (V × K)) (fuel : Nat) (root : K) : List V :=
  (walk next fuel ⟨[root], [], []⟩).out

/-- The edges of a node: their labels are handed out in order, and their new targets are pushed. -/
theorem foldl_follow (edges : List (V × K)) (s : State K V) (hs : s.added.Nodup) :
    ∃ new, edges.foldl follow s = ⟨new ++ s.stack, new ++ s.added, s.out ++ edges.map Prod.fst⟩ ∧
      (new ++ s.added).Nodup ∧ (∀ k ∈ new, ∃ v, (v, k) ∈ edges) ∧
      ∀ edge ∈ edges, edge.2 ∈ new ++ s.added := by
  induction edges generalizing s with
  | nil => exact ⟨[], by simp, hs, by simp, by simp⟩
  | cons edge edges ih =>
    rw [foldl_cons]
    by_cases hold : edge.2 ∈ s.added
    · have hfollow : follow s edge = { s with out := s.out ++ [edge.1] } := if_pos hold
      obtain ⟨new, hfold, hnodup, hnew, hall⟩ := ih (follow s edge) (by rwa [hfollow])
      rw [hfollow] at hfold hnodup hall
      refine ⟨new, by rw [hfollow, hfold]; simp, hnodup, ?_, ?_⟩
      · intro k hk
        obtain ⟨v, hv⟩ := hnew k hk
        exact ⟨v, mem_cons_of_mem _ hv⟩
      · exact forall_mem_cons.mpr ⟨mem_append_right _ hold, hall⟩
    · have hfollow : follow s edge = ⟨edge.2 :: s.stack, edge.2 :: s.added, s.out ++ [edge.1]⟩ :=
        if_neg hold
      obtain ⟨new, hfold, hnodup, hnew, hall⟩ := ih (follow s edge) (by simp [hfollow, hold, hs])
      rw [hfollow] at hfold hnodup hall
      refine ⟨new ++ [edge.2], by rw [hfollow, hfold]; simp, by simpa using hnodup, ?_, ?_⟩
      · intro k hk
        rcases mem_append.mp hk with hk | hk
        · obtain ⟨v, hv⟩ := hnew k hk
          exact ⟨v, mem_cons_of_mem _ hv⟩
        · exact ⟨edge.1, by simp [mem_singleton.mp hk]⟩
      · refine forall_mem_cons.mpr ⟨by simp, ?_⟩
        intro e he
        simpa using hall e he

namespace Progress

variable {s : State K V} {popped : List K}

theorem pop {k : K} {rest : List K} (h : Progress next root s popped) (hstack : s.stack = k :: rest) :
    Progress next root ((next k).foldl follow { s with stack := rest }) (popped ++ [k]) := by
  have hk : Reaches next root k := h.reaches (by simp [hstack])
  obtain ⟨new, hfold, hnodup, hnew, hall⟩ := foldl_follow (next k) { s with stack := rest } h.nodup
  rw [hfold]
  refine ⟨?_, ?_, hnodup, ?_, ?_⟩
  · simp [h.out]
  · have hold : (popped ++ k :: rest).Perm (root :: s.added) := hstack ▸ h.nodes
    calc (popped ++ [k] ++ (new ++ rest)).Perm (new ++ (popped ++ k :: rest)) := by
          simpa using perm_append_comm_assoc (popped ++ [k]) new rest
      _ |>.Perm (new ++ root :: s.added) := hold.append_left new
      _ |>.Perm (root :: (new ++ s.added)) := perm_middle
  · intro k' hk' edge hedge
    rcases mem_append.mp hk' with hk' | hk'
    · exact mem_append_right _ (h.closed k' hk' edge hedge)
    · rw [mem_singleton.mp hk'] at hedge
      exact hall edge hedge
  · intro k' hk'
    rcases mem_append.mp hk' with hk' | hk'
    · exact ⟨k, hk, hnew k' hk'⟩
    · exact h.reached k' hk'

/-- The walk goes on until the stack is empty or the fuel is used up. -/
theorem walk (fuel : Nat) (h : Progress next root s popped) :
    ∃ popped', Progress next root (walk next fuel s) popped' ∧
      ((Worklist.walk next fuel s).stack = [] ∨ popped'.length = popped.length + fuel) := by
  induction fuel generalizing s popped with
  | zero => exact ⟨popped, h, .inr rfl⟩
  | succ fuel ih =>
    unfold Worklist.walk
    split
    · next hstack => exact ⟨popped, h, .inl hstack⟩
    · next hstack =>
        obtain ⟨popped', h', hend⟩ := ih (h.pop hstack)
        refine ⟨popped', h', hend.imp_right ?_⟩
        rw [length_append, length_singleton]
        omega

end Progress

theorem exists_edge_of_mem_walkFrom (h : v ∈ walkFrom next fuel root) :
    ∃ k k', Reaches next root k ∧ (v, k') ∈ next k := by
  obtain ⟨popped, hprogress, -⟩ := (Progress.start next root).walk fuel
  rw [walkFrom, hprogress.out] at h
  obtain ⟨k, hk, hv⟩ := mem_flatMap.mp h
  obtain ⟨edge, hedge, rfl⟩ := mem_map.mp hv
  exact ⟨k, edge.2, hprogress.reaches (mem_append_left _ hk), hedge⟩

/-- With a step for the start and one for every node that an edge can lead to, the walk hands out the
labels of the start and of the nodes that edges of reachable nodes lead to, each of them once. -/
theorem walkFrom_perm (root : K) (hnodes : ∀ k, ∀ edge ∈ next k, edge.2 ∈ nodes)
    (hfuel : nodes.card + 1 ≤ fuel) :
    (walk next fuel ⟨[root], [], []⟩).stack = [] ∧ ∃ added : List K, added.Nodup ∧
      (∀ k, k ∈ added ↔ ∃ k', Reaches next root k' ∧ Edge next k' k) ∧
      (walkFrom next fuel root).Perm
        ((root :: added).flatMap fun k => (next k).map Prod.fst) := by
  obtain ⟨popped, h, hend⟩ := (Progress.start next root).walk fuel
  have hcard : (walk next fuel ⟨[root], [], []⟩).added.length ≤ nodes.card := by
    rw [← toFinset_card_of_nodup h.nodup]
    refine Finset.card_le_card fun k hk => ?_
    obtain ⟨k', -, v, hv⟩ := h.reached k (mem_toFinset.mp hk)
    exact hnodes k' _ hv
  have hlength := h.nodes.length_eq
  rw [length_append, length_cons] at hlength
  have hstack : (walk next fuel ⟨[root], [], []⟩).stack = [] := by
    refine hend.elim id fun hused => eq_nil_of_length_eq_zero ?_
    rw [length_nil] at hused
    omega
  have hpopped : popped.Perm (root :: (walk next fuel ⟨[root], [], []⟩).added) := by
    have hperm := h.nodes
    rwa [hstack, append_nil] at hperm
  refine ⟨hstack, _, h.nodup, fun k => ⟨h.reached k, ?_⟩, ?_⟩
  · rintro ⟨k', hk', v, hv⟩
    have hdone : k' ∈ popped := by
      refine hpopped.symm.subset ?_
      clear hv
      induction hk' with
      | refl => exact mem_cons_self
      | tail _ hedge ih =>
        obtain ⟨v, hv⟩ := hedge
        exact mem_cons_of_mem _ (h.closed _ (hpopped.symm.subset ih) _ hv)
    exact h.closed k' hdone _ hv
  · rw [walkFrom, h.out]
    exact hpopped.flatMap_right _

/-- The walk hands out the labels of the edges of the reachable nodes, and nothing else. -/
theorem mem_walkFrom_iff (hnodes : ∀ k, ∀ edge ∈ next k, edge.2 ∈ nodes)
    (hfuel : nodes.card + 1 ≤ fuel) :
    v ∈ walkFrom next fuel root ↔ ∃ k k', Reaches next root k ∧ (v, k') ∈ next k := by
  obtain ⟨-, added, -, hadded, hperm⟩ := walkFrom_perm root hnodes hfuel
  have hreaches : ∀ k, k ∈ root :: added ↔ Reaches next root k := by
    intro k
    rw [mem_cons, hadded, Reaches, Relation.ReflTransGen.cases_tail_iff, eq_comm]
  rw [hperm.mem_iff, mem_flatMap]
  constructor
  · rintro ⟨k, hk, hv⟩
    obtain ⟨edge, hedge, rfl⟩ := mem_map.mp hv
    exact ⟨k, edge.2, (hreaches k).mp hk, hedge⟩
  · rintro ⟨k, k', hk, hedge⟩
    exact ⟨k, (hreaches k).mpr hk, mem_map.mpr ⟨_, hedge, rfl⟩⟩

end Worklist
