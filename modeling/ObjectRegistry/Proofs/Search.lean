import Mathlib.Data.List.TakeWhile
import ObjectRegistry.Reach

namespace ObjectRegistry

/-- A path from `pending` along `next` leads to the name, through names of `unseen` only. -/
inductive ReachIn (next : Name → List Name) (unseen pending : List Name) : Name → Prop where
  | root {n : Name} (hu : n ∈ unseen) (hp : n ∈ pending) : ReachIn next unseen pending n
  | step {a b : Name} (ha : ReachIn next unseen pending a) (hu : b ∈ unseen) (hb : b ∈ next a) :
    ReachIn next unseen pending b

variable {next : Name → List Name} {unseen pending rest : List Name} {n x : Name}

namespace ReachIn

theorem of_visit (hn : n ∈ unseen) (hp : n ∈ pending) (hr : rest ⊆ pending)
    (h : ReachIn next (unseen.erase n) (next n ++ rest) x) : ReachIn next unseen pending x := by
  induction h with
  | root hu hx =>
    have hu := List.mem_of_mem_erase hu
    obtain hx | hx := List.mem_append.1 hx
    · exact .step (.root hn hp) hu hx
    · exact .root hu (hr hx)
  | step _ hu hb ih => exact .step ih (List.mem_of_mem_erase hu) hb

theorem visit (hr : ∀ k ∈ pending, k ∈ unseen → k = n ∨ k ∈ rest) (hx : x ≠ n)
    (h : ReachIn next unseen pending x) : ReachIn next (unseen.erase n) (next n ++ rest) x := by
  induction h with
  | root hu hp =>
    refine .root ((List.mem_erase_of_ne hx).2 hu) (List.mem_append_right _ ?_)
    exact (hr _ hp hu).resolve_left hx
  | @step a b ha hu hb ih =>
    have hu := (List.mem_erase_of_ne hx).2 hu
    by_cases han : a = n
    · exact .root hu (List.mem_append_left _ (han ▸ hb))
    · exact .step (ih han) hu hb

theorem not_of_pending (hp : ∀ k ∈ pending, k ∉ unseen) : ¬ReachIn next unseen pending x := by
  intro h
  induction h with
  | root hu hx => exact hp _ hx hu
  | step _ _ _ ih => exact ih

end ReachIn

theorem seen_of_dropWhile_nil (h : pending.dropWhile (· ∉ unseen) = []) :
    ∀ k ∈ pending, k ∉ unseen := by
  intro k hk
  exact of_decide_eq_true (List.dropWhile_eq_nil_iff.1 h k hk)

theorem of_dropWhile_cons (h : pending.dropWhile (· ∉ unseen) = n :: rest) :
    n ∈ unseen ∧ n ∈ pending ∧ rest ⊆ pending ∧ ∀ k ∈ pending, k ∈ unseen → k = n ∨ k ∈ rest := by
  have hsplit := List.takeWhile_append_dropWhile (p := fun k => decide (k ∉ unseen)) (l := pending)
  rw [h] at hsplit
  have hhead := List.head?_dropWhile_not (fun k => decide (k ∉ unseen)) pending
  rw [h] at hhead
  refine ⟨by simpa using hhead, ?_, ?_, fun k hk hu => ?_⟩
  · exact hsplit ▸ List.mem_append_right _ List.mem_cons_self
  · intro k hk
    rw [← hsplit]
    exact List.mem_append_right _ (List.mem_cons_of_mem _ hk)
  · rw [← hsplit, List.mem_append, List.mem_cons] at hk
    refine hk.resolve_left fun hk => ?_
    have hseen := List.mem_takeWhile_imp hk
    exact of_decide_eq_true hseen hu

theorem mem_gatherUpTo {bound : Nat} (hb : unseen.length ≤ bound) :
    x ∈ gatherUpTo next bound unseen pending ↔ ReachIn next unseen pending x := by
  induction bound generalizing unseen pending with
  | zero =>
    rw [List.eq_nil_of_length_eq_zero (Nat.le_zero.1 hb)]
    refine ⟨fun h => absurd h List.not_mem_nil, fun h => absurd h ?_⟩
    exact ReachIn.not_of_pending fun _ _ => List.not_mem_nil
  | succ bound ih =>
    rw [gatherUpTo]
    split
    · case h_1 hd =>
      refine ⟨fun h => absurd h List.not_mem_nil, fun h => absurd h ?_⟩
      exact ReachIn.not_of_pending (seen_of_dropWhile_nil hd)
    · case h_2 n rest hd =>
      -- Visiting `n` makes the domain smaller, which is why the bound may go down.
      obtain ⟨hn, hp, hrest, hleft⟩ := of_dropWhile_cons hd
      have hlen : (unseen.erase n).length ≤ bound := by
        rw [List.length_erase_of_mem hn]
        omega
      rw [List.mem_cons, ih hlen]
      constructor
      · rintro (rfl | h)
        · exact .root hn hp
        · exact h.of_visit hn hp hrest
      · intro h
        by_cases hx : x = n
        · exact .inl hx
        · exact .inr (h.visit hleft hx)

theorem mem_gather : x ∈ gather next unseen pending ↔ ReachIn next unseen pending x :=
  mem_gatherUpTo (Nat.le_refl _)

end ObjectRegistry
