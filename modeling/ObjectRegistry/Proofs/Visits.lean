import Mathlib.Data.List.Nodup
import Mathlib.Logic.Relation
import ObjectRegistry.Name

namespace ObjectRegistry

/-- Depth-first search. `Visits next seen waiting seen'` holds if the search comes from the names
`seen`, in the order in which they were found, to `seen'` once it is done with `waiting`. -/
inductive Visits (next : Name → List Name) : List Name → List Name → List Name → Prop where
  | nil (seen : List Name) : Visits next seen [] seen
  | again {seen seen' waiting : List Name} {n : Name} (hn : n ∈ seen)
    (rest : Visits next seen waiting seen') : Visits next seen (n :: waiting) seen'
  | first {seen between seen' waiting : List Name} {n : Name} (hn : n ∉ seen)
    (deep : Visits next (seen ++ [n]) (next n) between)
    (rest : Visits next between waiting seen') : Visits next seen (n :: waiting) seen'

def Reaches (next : Name → List Name) : Name → Name → Prop :=
  Relation.ReflTransGen fun a b => b ∈ next a

namespace Visits

variable {next : Name → List Name} {seen between seen' waiting others : List Name} {n root : Name}

theorem append (h : Visits next seen waiting between) (h' : Visits next between others seen') :
    Visits next seen (waiting ++ others) seen' := by
  induction h with
  | nil => exact h'
  | again hn _ ih => exact .again hn (ih h')
  | first hn deep _ _ ih => exact .first hn deep (ih h')

theorem subset (h : Visits next seen waiting seen') : seen ⊆ seen' := by
  induction h with
  | nil => exact List.Subset.refl _
  | again _ _ ih => exact ih
  | first _ _ _ ihd ihr =>
    intro k hk
    apply ihr
    apply ihd
    exact List.mem_append_left _ hk

theorem waiting_subset (h : Visits next seen waiting seen') : waiting ⊆ seen' := by
  induction h with
  | nil => exact List.nil_subset _
  | again hn rest ih => exact List.cons_subset.2 ⟨rest.subset hn, ih⟩
  | first _ deep rest _ ih =>
    refine List.cons_subset.2 ⟨rest.subset (deep.subset ?_), ih⟩
    exact List.mem_append_right _ (List.mem_singleton_self _)

theorem nodup (h : Visits next seen waiting seen') (hs : seen.Nodup) : seen'.Nodup := by
  induction h with
  | nil => exact hs
  | again _ _ ih => exact ih hs
  | first hn _ _ ihd ihr =>
    apply ihr
    apply ihd
    rw [← List.concat_eq_append]
    exact hs.concat hn

theorem reaches (h : Visits next seen waiting seen') (hn : n ∈ seen') :
    n ∈ seen ∨ ∃ d ∈ waiting, Reaches next d n := by
  induction h with
  | nil => exact .inl hn
  | again _ _ ih =>
    obtain hs | ⟨d, hd, hr⟩ := ih hn
    · exact .inl hs
    · exact .inr ⟨d, List.mem_cons_of_mem _ hd, hr⟩
  | @first _ _ _ _ k _ _ _ ihd ihr =>
    obtain hb | ⟨d, hd, hr⟩ := ihr hn
    · obtain hs | ⟨d, hd, hr⟩ := ihd hb
      · obtain hs | hk := List.mem_append.1 hs
        · exact .inl hs
        · rw [List.mem_singleton] at hk
          exact .inr ⟨k, List.mem_cons_self, hk ▸ Relation.ReflTransGen.refl⟩
      · exact .inr ⟨k, List.mem_cons_self, Relation.ReflTransGen.head hd hr⟩
    · exact .inr ⟨d, List.mem_cons_of_mem _ hd, hr⟩

theorem closed (h : Visits next seen waiting seen') (hn : n ∈ seen') (hs : n ∉ seen) :
    next n ⊆ seen' := by
  induction h with
  | nil => exact absurd hn hs
  | again _ _ ih => exact ih hn hs
  | @first _ between _ _ k _ deep rest ihd ihr =>
    by_cases hb : n ∈ between
    · by_cases hk : n = k
      · rw [hk]
        exact List.Subset.trans deep.waiting_subset rest.subset
      · refine List.Subset.trans (ihd hb ?_) rest.subset
        simp only [List.mem_append, List.mem_singleton, hs, hk, or_self, not_false_eq_true]
    · exact ihr hn hb

theorem mem_iff (h : Visits next [] [root] seen') : n ∈ seen' ↔ Reaches next root n := by
  constructor
  · intro hn
    obtain hs | ⟨d, hd, hr⟩ := h.reaches hn
    · cases hs
    · rw [List.mem_singleton] at hd
      exact hd ▸ hr
  · intro hr
    induction hr with
    | refl => exact h.waiting_subset (List.mem_singleton_self root)
    | tail _ hk ih => exact h.closed ih List.not_mem_nil hk

end Visits

end ObjectRegistry
