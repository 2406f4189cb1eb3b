import ObjectRegistry.Proofs.Weave

namespace ObjectRegistry

variable {κ : Type}

theorem NameMap.erase_of_none {α : Type} {t : NameMap α} {n : Name} (h : t[n]? = none) :
    t.erase n = t := by
  apply Std.ExtTreeMap.ext_getElem?
  intro k
  rw [NameMap.getElem?_erase]
  by_cases hk : n = k
  · rw [if_pos hk, ← hk, h]
  · rw [if_neg hk]

namespace Store

variable {s : Store κ} {made : List (Name × Handle)} {n : Name} {h : Handle}

def finishAll (s : Store κ) (made : List (Name × Handle)) : Store κ :=
  made.foldl (fun s x => s.finish x.1 x.2) s

theorem finishAll_concat (x : Name × Handle) :
    s.finishAll (made ++ [x]) = (s.finishAll made).finish x.1 x.2 :=
  List.foldl_concat ..

theorem finishAll_keeps {α : Type} (view : Store κ → α)
    (h : ∀ x ∈ made, ∀ t, view t = view s → view (t.finish x.1 x.2) = view s) :
    view (s.finishAll made) = view s := by
  induction made generalizing s with
  | nil => rfl
  | cons x made ih =>
    have hx := h x List.mem_cons_self s rfl
    refine (ih fun y hy t ht => ?_).trans hx
    rw [hx] at ht ⊢
    exact h y (List.mem_cons_of_mem _ hy) t ht

theorem finishAll_closed : (s.finishAll made).closed = s.closed :=
  finishAll_keeps Store.closed fun _ _ _ ht => ht

theorem finishAll_finished_of_not_mem (hn : n ∉ made.map Prod.fst) :
    (s.finishAll made).finished[n]? = s.finished[n]? := by
  refine finishAll_keeps (fun s => s.finished[n]?) fun x hx t ht => ?_
  have hxn : x.1 ≠ n := fun hxn => hn (hxn ▸ List.mem_map_of_mem hx)
  change (t.finished.insert x.1 x.2)[n]? = _
  rw [NameMap.getElem?_insert, if_neg hxn, ht]

theorem finishAll_finished (hm : (made.map Prod.fst).Nodup) (hn : (n, h) ∈ made) :
    (s.finishAll made).finished[n]? = some h := by
  induction made generalizing s with
  | nil => cases hn
  | cons x made ih =>
    rw [List.map_cons, List.nodup_cons] at hm
    obtain rfl | hn := List.mem_cons.1 hn
    · refine (finishAll_finished_of_not_mem hm.1).trans ?_
      change (s.finished.insert n h)[n]? = _
      rw [NameMap.getElem?_insert, if_pos rfl]
    · exact ih hm.2 hn

theorem finishAll_early (hn : ∀ n ∈ made.map Prod.fst, s.early[n]? = none) :
    (s.finishAll made).early = s.early := by
  refine finishAll_keeps Store.early fun x hx t ht => ?_
  change t.early.erase x.1 = _
  rw [ht, NameMap.erase_of_none (hn x.1 (List.mem_map_of_mem hx))]

theorem finishAll_pending (hn : ∀ n ∈ made.map Prod.fst, s.pending[n]? = none) :
    (s.finishAll made).pending = s.pending := by
  refine finishAll_keeps Store.pending fun x hx t ht => ?_
  change t.pending.erase x.1 = _
  rw [ht, NameMap.erase_of_none (hn x.1 (List.mem_map_of_mem hx))]

theorem finishAll_filed (hm : (made.map Prod.fst).Nodup)
    (hn : ∀ n ∈ made.map Prod.fst, n ∉ s.filed) :
    (s.finishAll made).filed = s.filed ++ made.map Prod.fst := by
  induction made generalizing s with
  | nil => exact (List.append_nil _).symm
  | cons x made ih =>
    rw [List.map_cons, List.nodup_cons] at hm
    have hx : (s.finish x.1 x.2).filed = s.filed ++ [x.1] := if_neg (hn x.1 List.mem_cons_self)
    refine (ih hm.2 fun n h => ?_).trans ?_
    · rw [hx, List.mem_append, List.mem_singleton, not_or]
      exact ⟨hn n (List.mem_cons_of_mem _ h), fun hnx => hm.1 (hnx ▸ h)⟩
    · rw [hx, List.append_assoc]
      rfl

theorem discard_of_none (hf : s.finished[n]? = none) (he : s.early[n]? = none)
    (hp : s.pending[n]? = none) (hn : n ∉ s.filed) : s.discard n = s := by
  have hc : s.finished.contains n = false := by
    rw [Std.ExtTreeMap.contains_eq_isSome_getElem?, hf, Option.isSome_none]
  simp only [discard, NameMap.erase_of_none he, NameMap.erase_of_none hp, hc,
    List.erase_of_not_mem hn, Bool.false_eq_true, ↓reduceIte]

end Store

namespace Registry

variable {base : Registry κ} {stack : List Name} {made : List (Name × Handle)} {d : Name}
  {h : Handle} {factory : κ}

/-- What has become of `base` once the objects `made` are finished, while constructions of the
names on `stack` are in progress. -/
def midway (base : Registry κ) (stack : List Name) (made : List (Name × Handle)) : Registry κ :=
  { base with marks := base.marks.under stack, store := base.store.finishAll made }

theorem midway_nil : base.midway [] [] = base := rfl

theorem isUnderway_midway (hd : base.Fresh d) :
    (base.midway stack made).marks.isUnderway d = decide (d ∈ stack) := by
  simp only [midway, Marks.isUnderway, Marks.isMarked, Marks.under, hd.tracked, List.mem_append,
    hd.unmarked, or_false, not_false_eq_true, decide_true, Bool.true_and]

theorem begun_midway (hd : base.Fresh d) :
    (base.midway stack made).begun d = base.midway (d :: stack) made := by
  simp only [midway, begun, Marks.under, hd.tracked, ↓reduceIte, reduceCtorEq, List.cons_append]
  split <;> simp only [Option.getD_some]

theorem suppressed_midway (base : Registry κ) (stack : List Name) (made : List (Name × Handle))
    (d : Name) :
    (base.midway (d :: stack) made).suppressed (base.marks.under stack).window.isNone = [] := by
  rw [suppressed]
  split
  · case isTrue hw =>
    rw [Option.isNone_iff_eq_none, Marks.under] at hw
    obtain ⟨-, hw⟩ | ⟨-, hw⟩ := ite_eq_iff.1 hw
    · simp only [midway, Marks.under, hw, reduceCtorEq, ↓reduceIte, Option.getD_none,
        Option.getD_some]
    · cases hw
  · rfl

section Made

variable (stack : List Name) (hmade : ∀ n ∈ made.map Prod.fst, base.Fresh n)
include hmade

theorem early_midway : (base.midway stack made).store.early = base.store.early :=
  Store.finishAll_early fun n hn => (hmade n hn).early

theorem pending_midway : (base.midway stack made).store.pending = base.store.pending :=
  Store.finishAll_pending fun n hn => (hmade n hn).pending

variable (hm : (made.map Prod.fst).Nodup)
include hm

theorem filed_midway :
    (base.midway stack made).store.filed = base.store.filed ++ made.map Prod.fst :=
  Store.finishAll_filed hm fun n hn => (hmade n hn).unfiled

theorem names_midway :
    (base.midway stack made).store.names = base.store.names ++ made.map Prod.fst := by
  rw [Store.names, filed_midway stack hmade hm, List.filter_append, Store.names]
  congr 1
  · apply List.filter_congr
    intro n hn
    have hnew : n ∉ made.map Prod.fst := fun hk => (hmade n hk).unfiled hn
    rw [Std.ExtTreeMap.contains_eq_isSome_getElem?, Std.ExtTreeMap.contains_eq_isSome_getElem?]
    exact congrArg _ (Store.finishAll_finished_of_not_mem hnew)
  · rw [List.filter_eq_self]
    intro n hn
    obtain ⟨⟨n, h⟩, hx, rfl⟩ := List.mem_map.1 hn
    rw [Std.ExtTreeMap.contains_eq_isSome_getElem?]
    exact congrArg Option.isSome (Store.finishAll_finished hm hx)

end Made

section Requests

variable (hd : base.Fresh d)
include hd

theorem obtain_midway_made (hm : (made.map Prod.fst).Nodup) (hx : (d, h) ∈ made) :
    (base.midway stack made).obtain d factory =
      .reply (.made (.ok h)) (base.midway stack made) [.finishedFound d] :=
  obtain_finished hd.named (Store.finishAll_finished hm hx)

variable (ho : base.store.closed = false) (hn : d ∉ made.map Prod.fst)

include ho hn in
theorem obtain_midway_new (hs : d ∉ stack) :
    (base.midway stack made).obtain d factory =
      .construct d (base.marks.under stack).window.isNone factory
        (base.midway (d :: stack) made) := by
  rw [← begun_midway hd]
  apply obtain_fresh hd.named
  · exact (Store.finishAll_finished_of_not_mem hn).trans hd.finished
  · exact Store.finishAll_closed.trans ho
  · rw [isUnderway_midway hd, decide_eq_false hs]

include ho hn in
theorem obtain_midway_circular (hmade : ∀ n ∈ made.map Prod.fst, base.Fresh n)
    (hs : d ∈ stack) :
    (base.midway stack made).obtain d factory =
      .reply (.made (.error (.circularCreation d))) (base.midway stack made) [] := by
  apply obtain_circular hd.named
  · exact (Store.finishAll_finished_of_not_mem hn).trans hd.finished
  · exact Store.finishAll_closed.trans ho
  · rw [isUnderway_midway hd, decide_eq_true hs]
  · rw [early_midway _ hmade, hd.early]
  · rw [pending_midway _ hmade, hd.pending]

theorem release_midway (s : Store κ) :
    { base.midway (d :: stack) made with store := s }.release d
        (base.marks.under stack).window.isNone =
      { base.midway stack made with store := s } := by
  rw [release]
  congr 1
  exact base.marks.leave_under stack hd.tracked

theorem complete_midway_ok :
    (base.midway (d :: stack) made).complete d (base.marks.under stack).window.isNone (.ok h) =
      (.made (.ok h), base.midway stack (made ++ [(d, h)]), []) := by
  have hm : base.midway stack (made ++ [(d, h)]) =
      { base.midway stack made with store := (base.store.finishAll made).finish d h } := by
    rw [midway, Store.finishAll_concat]
    rfl
  rw [hm, ← release_midway hd]
  rfl

theorem complete_midway_error (stack : List Name) (hmade : ∀ n ∈ made.map Prod.fst, base.Fresh n)
    (hm : (made.map Prod.fst).Nodup) (hn : d ∉ made.map Prod.fst) (fault : Fault) :
    (base.midway (d :: stack) made).complete d (base.marks.under stack).window.isNone
        (.error fault) =
      (.made (.error (.creationFailed d fault [])), base.midway stack made,
        [.earlyDiscarded d, .creationFailed d fault 0]) := by
  have hdiscard : (base.midway (d :: stack) made).store.discard d =
      (base.midway (d :: stack) made).store := by
    apply Store.discard_of_none
    · exact (Store.finishAll_finished_of_not_mem hn).trans hd.finished
    · rw [early_midway _ hmade, hd.early]
    · rw [pending_midway _ hmade, hd.pending]
    · rw [filed_midway _ hmade hm, List.mem_append, not_or]
      exact ⟨hd.unfiled, hn⟩
  have habandon : (base.midway (d :: stack) made).abandon d
      (base.marks.under stack).window.isNone = base.midway stack made :=
    (release_midway hd _).trans
      (congrArg (fun s => { base.midway stack made with store := s }) hdiscard)
  rw [complete, suppressed_midway, habandon]
  rfl

end Requests

end Registry

end ObjectRegistry
