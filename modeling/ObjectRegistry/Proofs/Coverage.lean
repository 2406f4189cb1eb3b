import ObjectRegistry.Proofs.Orderly

namespace ObjectRegistry

variable {κ : Type}

namespace Walk

/-- What holds at every point of the teardown of one name. The registry had the edges `e` and the
names in `alive` at its beginning. -/
structure Covers (e : Edges) (alive : Name → Prop) (w : Walk κ) (r : Registry κ) : Prop where
  single : ∀ {t}, t ∈ w.tasks → t.isRoot = false
  dependents : ∀ {k s}, k ∈ w.visited → s ∈ e.dependentsOf k →
    s ∈ w.visited ∨ .enter s ∈ w.tasks
  contained : ∀ {k s}, k ∈ w.visited → s ∈ e.containedIn k →
    s ∈ w.visited ∨ .enter s ∈ w.tasks ∨ .contained k ∈ w.tasks ∧ s ∈ r.edges.containedIn k
  dependents_intact : ∀ {k s}, k ∉ w.visited → s ∈ e.dependentsOf k →
    s ∈ w.visited ∨ s ∈ r.edges.dependentsOf k
  contained_intact : ∀ {k s}, k ∉ w.visited → s ∈ e.containedIn k →
    s ∈ w.visited ∨ s ∈ r.edges.containedIn k
  accounted : ∀ {k}, alive k → r.Alive k ∨ w.Due k ∨ k ∈ w.report.destroyed

variable {e : Edges} {alive : Name → Prop} {w w' : Walk κ} {r r' : Registry κ} {n : Name}

theorem Quiet.due_or_reported (h : Quiet w r w' r') (hd : w.Due n) :
    w'.Due n ∨ n ∈ w'.report.destroyed := by
  obtain ⟨callback, hc⟩ := hd
  obtain ⟨task, rest, hw, hnew⟩ := h.tasks_inv
  rw [hw] at hc
  obtain rfl | hc := List.mem_cons.1 hc
  · right
    cases h with
    | dispose outcome =>
      cases hw
      exact List.mem_append_right _ (List.mem_singleton_self n)
    | _ => cases hw
  · left
    obtain ⟨names, hw'⟩ | ⟨k, -, -, hw'⟩ := hnew
    · exact ⟨callback, hw' ▸ List.mem_append_right _ hc⟩
    · refine ⟨callback, hw' ▸ List.mem_append_right _ ?_⟩
      simp only [List.mem_cons, hc, or_true]

theorem Quiet.alive_or_due (h : Quiet w r w' r') (hs : ∀ {t}, t ∈ w.tasks → t.isRoot = false)
    (ha : r.Alive n) : r'.Alive n ∨ w'.Due n := by
  cases h with
  | start | again hn | dispose outcome | contained | forget => exact .inl ha
  | sweep => nomatch hs List.mem_cons_self
  | @enter _ k rest visited report hn =>
    by_cases hnk : n = k
    · subst hnk
      right
      rw [Registry.Alive, Disposers.has, ← Bool.or_eq_true] at ha
      refine ⟨r.disposers.find? n, List.mem_append_right _ ?_⟩
      rw [ha]
      exact List.mem_cons_self
    · exact .inl (Registry.alive_claim.2 ⟨ha, hnk⟩)

theorem Quiet.destroyed_subset (h : Quiet w r w' r') :
    w.report.destroyed ⊆ w'.report.destroyed := by
  obtain hd | ⟨k, callback, -, hd⟩ := h.report_inv
  · rw [hd]
    exact List.Subset.refl _
  · rw [hd]
    exact List.subset_append_left _ _

theorem Covers.accounted_quiet (h : Covers e alive w r) (hq : Quiet w r w' r') {k : Name}
    (hk : alive k) : r'.Alive k ∨ w'.Due k ∨ k ∈ w'.report.destroyed := by
  obtain ha | hd | hd := h.accounted hk
  · exact (hq.alive_or_due h.single ha).imp_right .inl
  · exact .inr (hq.due_or_reported hd)
  · exact .inr (.inr (hq.destroyed_subset hd))

theorem Covers.single_quiet (h : Covers e alive w r) (hq : Quiet w r w' r') {t : Task κ}
    (ht : t ∈ w'.tasks) : t.isRoot = false := by
  obtain ht | ⟨k, rfl⟩ | ⟨k, _, -, -, -, rfl | rfl | rfl⟩ := hq.mem_tasks_inv ht
  · exact h.single ht
  all_goals rfl

theorem Quiet.visited_subset (h : Quiet w r w' r')
    (hs : ∀ {t}, t ∈ w.tasks → t.isRoot = false) : w.visited ⊆ w'.visited := by
  cases h with
  | start => nomatch hs List.mem_cons_self
  | sweep => nomatch hs List.mem_cons_self
  | again hn => exact List.Subset.refl _
  | dispose outcome => exact List.Subset.refl _
  | contained | forget => exact List.Subset.refl _
  | enter hn => exact List.subset_cons_self _ _

theorem Quiet.entry (h : Quiet w r w' r') (hs : ∀ {t}, t ∈ w.tasks → t.isRoot = false)
    (hn : n ∈ w.visited ∨ .enter n ∈ w.tasks) : n ∈ w'.visited ∨ .enter n ∈ w'.tasks := by
  cases h with
  | start => nomatch hs List.mem_cons_self
  | sweep => nomatch hs List.mem_cons_self
  | dispose outcome | forget =>
    exact hn.imp_right (List.mem_of_ne_of_mem fun he => by cases he)
  | contained =>
    refine hn.imp_right fun ht => List.mem_append_right _ ?_
    exact List.mem_of_ne_of_mem (fun he => by cases he) ht
  | again hk =>
    obtain hv | ht := hn
    · exact .inl hv
    · obtain ht | ht := List.mem_cons.1 ht
      · cases ht
        exact .inl hk
      · exact .inr ht
  | enter hk =>
    obtain hv | ht := hn
    · exact .inl (List.mem_cons_of_mem _ hv)
    · obtain ht | ht := List.mem_cons.1 ht
      · cases ht
        exact .inl List.mem_cons_self
      · refine .inr (List.mem_append_right _ ?_)
        simp only [List.mem_cons, ht, or_true]

theorem Covers.contained_quiet (h : Covers e alive w r) (ho : Orderly e w r)
    (hq : Quiet w r w' r') {k s : Name} (hk : k ∈ w.visited) (hs : s ∈ e.containedIn k) :
    s ∈ w'.visited ∨ .enter s ∈ w'.tasks ∨
      .contained k ∈ w'.tasks ∧ s ∈ r'.edges.containedIn k := by
  obtain hv | ht | ⟨ht, hc⟩ := h.contained hk hs
  · exact (hq.entry h.single (.inl hv)).imp_right .inl
  · exact (hq.entry h.single (.inr ht)).imp_right .inl
  cases hq with
  | start => nomatch h.single List.mem_cons_self
  | sweep => nomatch h.single List.mem_cons_self
  | again hn | dispose outcome =>
    exact .inr (.inr ⟨List.mem_of_ne_of_mem (fun he => by cases he) ht, hc⟩)
  | enter hn =>
    have ht := List.mem_of_ne_of_mem (fun he => by cases he) ht
    refine .inr (.inr ⟨List.mem_append_right _ ?_, hc⟩)
    simp only [List.mem_cons, ht, or_true]
  | @contained _ n rest visited report =>
    right
    obtain ht | ht := List.mem_cons.1 ht
    · cases ht
      exact .inl (List.mem_append_left _ (List.mem_map_of_mem hc))
    · by_cases hnk : n = k
      · exact .inl (List.mem_append_left _ (List.mem_map_of_mem (hnk ▸ hc)))
      · refine .inr ⟨List.mem_append_right _ ht, ?_⟩
        rwa [Edges.containedIn_takeContained, if_neg hnk]
  | @forget _ n rest visited report =>
    have hn : n ∈ visited := ho.entered List.mem_cons_self rfl
    have hover := (List.pairwise_cons.1 ho.stacked).1
    by_cases hsn : s = n
    · exact .inl (hsn ▸ hn)
    have ht : .contained k ∈ rest := List.mem_of_ne_of_mem (fun he => by cases he) ht
    have hnk : n ≠ k := fun hnk => (hover _ ht).2 (hnk ▸ rfl)
    exact .inr (.inr ⟨ht, (r.edges.mem_containedIn_forget n k hnk hsn).2 hc⟩)

theorem Covers.dependents_intact_quiet (h : Covers e alive w r) (ho : Orderly e w r)
    (hq : Quiet w r w' r') {k s : Name} (hk : k ∉ w'.visited) (hs : s ∈ e.dependentsOf k) :
    s ∈ w'.visited ∨ s ∈ r'.edges.dependentsOf k := by
  cases hq with
  | start => nomatch h.single List.mem_cons_self
  | sweep => nomatch h.single List.mem_cons_self
  | again hn | dispose outcome | contained => exact h.dependents_intact hk hs
  | @enter _ n rest visited report hn =>
    have hk : k ∉ n :: visited := hk
    rw [List.mem_cons, not_or] at hk
    obtain hv | hc := h.dependents_intact hk.2 hs
    · exact .inl (List.mem_cons_of_mem _ hv)
    · right
      change s ∈ (r.edges.takeDependents n).dependentsOf k
      rwa [Edges.dependentsOf_takeDependents, if_neg (Ne.symm hk.1)]
  | @forget _ n rest visited report =>
    have hn : n ∈ visited := ho.entered List.mem_cons_self rfl
    by_cases hsn : s = n
    · exact .inl (hsn ▸ hn)
    have hnk : n ≠ k := fun hnk => hk (hnk ▸ hn)
    exact (h.dependents_intact hk hs).imp_right (r.edges.mem_dependentsOf_forget n k hnk hsn).2

theorem Covers.contained_intact_quiet (h : Covers e alive w r) (ho : Orderly e w r)
    (hq : Quiet w r w' r') {k s : Name} (hk : k ∉ w'.visited) (hs : s ∈ e.containedIn k) :
    s ∈ w'.visited ∨ s ∈ r'.edges.containedIn k := by
  cases hq with
  | start => nomatch h.single List.mem_cons_self
  | sweep => nomatch h.single List.mem_cons_self
  | again hn | dispose outcome => exact h.contained_intact hk hs
  | @enter _ n rest visited report hn =>
    exact (h.contained_intact (mt (List.mem_cons_of_mem n) hk) hs).imp_left
      (List.mem_cons_of_mem n)
  | @contained _ n rest visited report =>
    have hn : n ∈ visited := ho.entered List.mem_cons_self rfl
    have hnk : n ≠ k := fun hnk => hk (hnk ▸ hn)
    rw [Edges.containedIn_takeContained, if_neg hnk]
    exact h.contained_intact hk hs
  | @forget _ n rest visited report =>
    have hn : n ∈ visited := ho.entered List.mem_cons_self rfl
    by_cases hsn : s = n
    · exact .inl (hsn ▸ hn)
    have hnk : n ≠ k := fun hnk => hk (hnk ▸ hn)
    exact (h.contained_intact hk hs).imp_right (r.edges.mem_containedIn_forget n k hnk hsn).2

theorem Covers.quiet (h : Covers e alive w r) (ho : Orderly e w r) (hq : Quiet w r w' r') :
    Covers e alive w' r' := by
  have hdependents {k s : Name} (hk : k ∈ w.visited) (hs : s ∈ e.dependentsOf k) :
      s ∈ w'.visited ∨ .enter s ∈ w'.tasks :=
    hq.entry h.single (h.dependents hk hs)
  have hcontained {k s : Name} := h.contained_quiet (k := k) (s := s) ho hq
  refine ⟨h.single_quiet hq, fun {k s} hk hs => ?_, fun {k s} hk hs => ?_,
    h.dependents_intact_quiet ho hq, h.contained_intact_quiet ho hq, h.accounted_quiet hq⟩
  · cases hq with
    | start => nomatch h.single List.mem_cons_self
    | sweep => nomatch h.single List.mem_cons_self
    | again hn | dispose outcome | contained | forget => exact hdependents hk hs
    | enter hn =>
      obtain rfl | hk := List.mem_cons.1 hk
      · obtain hv | hc := h.dependents_intact hn hs
        · exact .inl (List.mem_cons_of_mem _ hv)
        · exact .inr (List.mem_append_left _ (List.mem_map_of_mem hc))
      · exact hdependents hk hs
  · cases hq with
    | start => nomatch h.single List.mem_cons_self
    | sweep => nomatch h.single List.mem_cons_self
    | again hn | dispose outcome | contained | forget => exact hcontained hk hs
    | enter hn =>
      obtain rfl | hk := List.mem_cons.1 hk
      · obtain hv | hc := h.contained_intact hn hs
        · exact .inl (List.mem_cons_of_mem _ hv)
        · refine .inr (.inr ⟨List.mem_append_right _ ?_, hc⟩)
          simp only [List.mem_cons, true_or, or_true]
      · exact hcontained hk hs

theorem covers_one (n : Name) (r : Registry κ) : Covers r.edges r.Alive (.one n) r where
  single ht := by rw [List.mem_singleton.1 ht]; rfl
  dependents hk := absurd hk List.not_mem_nil
  contained hk := absurd hk List.not_mem_nil
  dependents_intact _ hs := .inr hs
  contained_intact _ hs := .inr hs
  accounted hk := .inl hk

/-- Once nothing but what `y` contains is left to be seen to, all that `y` undercuts is entered. -/
theorem Covers.of_undercuts {x y : Name} (h : Covers e alive w r) (hy : y ∈ w.visited)
    (henter : ∀ s, .enter s ∉ w.tasks) (hcontained : ∀ {k}, .contained k ∈ w.tasks → k = y)
    (hcut : e.Undercuts y x) : x ∈ w.visited := by
  obtain ⟨d, hd, hne, hp⟩ := hcut
  have hpath : x ∈ w.visited ∧ x ≠ y := by
    induction hp with
    | refl => exact ⟨(h.dependents hy hd).resolve_right (henter d), hne⟩
    | @tail a b _ hab ih =>
      obtain ⟨ha, hay⟩ := ih
      refine ⟨?_, hab.2⟩
      obtain hb | hb := hab.1
      · exact (h.dependents ha hb).resolve_right (henter b)
      · obtain hv | ht | ⟨ht, -⟩ := h.contained ha hb
        · exact hv
        · exact absurd ht (henter b)
        · exact absurd (hcontained ht) hay
  exact hpath.1

end Walk

end ObjectRegistry
