import ObjectRegistry.Proofs.Chains
import ObjectRegistry.Proofs.Obtain
import ObjectRegistry.Proofs.Visits

namespace ObjectRegistry

variable {κ : Type}

/-- Objects by name, what each needs, and the labels of the callbacks that make them. -/
structure Wiring (κ : Type) where
  needs : Name → List Name
  object : Name → Handle
  build : Name → κ
  early : Name → κ

structure Registry.Fresh (r : Registry κ) (n : Name) : Prop where
  named : n ≠ ""
  unlinked : r.links.isAlias n = false
  finished : r.store.finished[n]? = none
  early : r.store.early[n]? = none
  pending : r.store.pending[n]? = none
  unfiled : n ∉ r.store.filed
  unmarked : n ∉ r.marks.underway
  tracked : n ∉ r.marks.exempt

def Marks.under (m : Marks) (stack : List Name) : Marks where
  underway := stack ++ m.underway
  exempt := m.exempt
  window := if stack = [] then m.window else some (m.window.getD [])

theorem Marks.leave_under (m : Marks) (stack : List Name) {d : Name} (hd : d ∉ m.exempt) :
    (if (m.under stack).window.isNone then (m.under (d :: stack)).closeWindow
      else m.under (d :: stack)).leave d = m.under stack := by
  obtain ⟨underway, exempt, window⟩ := m
  have hleave (window : Option (List Fault)) :
      (Marks.mk (d :: stack ++ underway) exempt window).leave d =
        ⟨stack ++ underway, exempt, window⟩ := by
    rw [leave, if_neg hd]
    simp only [List.cons_append, List.erase_cons_head]
  by_cases hs : stack = []
  · cases window with
    | none =>
      simp only [under, hs, ↓reduceIte, Option.isNone_none, closeWindow]
      exact hs ▸ hleave none
    | some noted =>
      simp only [under, hs, ↓reduceIte, Option.isNone_some, Bool.false_eq_true, reduceCtorEq,
        Option.getD_some]
      exact hs ▸ hleave (some noted)
  · simp only [under, hs, ↓reduceIte, Option.isNone_some, Bool.false_eq_true, reduceCtorEq]
    exact hleave _

/-- What has become of `base` once the names `begun` were begun in this order. Those on `stack` are
in progress, and those of `shown` have shown their early objects. -/
structure Weave (w : Wiring κ) (base : Registry κ) (begun stack shown : List Name)
    (r : Registry κ) : Prop where
  links : r.links = base.links
  edges : r.edges = base.edges
  disposers : r.disposers = base.disposers
  marks : r.marks = base.marks.under stack
  closed : r.store.closed = base.store.closed
  filed : r.store.filed = base.store.filed ++ begun
  finished : ∀ n, r.store.finished[n]? =
    if n ∈ begun ∧ n ∉ stack then some (w.object n) else base.store.finished[n]?
  early : ∀ n, r.store.early[n]? =
    if n ∈ stack ∧ n ∈ shown then some (w.object n) else base.store.early[n]?
  pending : ∀ n, r.store.pending[n]? =
    if n ∈ stack ∧ n ∉ shown then some (w.early n) else base.store.pending[n]?
  stack_nodup : stack.Nodup
  stack_subset : stack ⊆ begun
  shown_nodup : shown.Nodup
  shown_subset : shown ⊆ begun

def Registry.entered (r : Registry κ) (n : Name) (early : κ) : Registry κ :=
  { r.begun n with store := r.store.defer n early }

namespace Weave

variable {w : Wiring κ} {base r : Registry κ} {begun stack shown : List Name} {d n : Name}
  {factory : κ}

theorem refl (base : Registry κ) : Weave w base [] [] [] base where
  links := rfl
  edges := rfl
  disposers := rfl
  marks := rfl
  closed := rfl
  filed := (List.append_nil _).symm
  finished n := by rw [if_neg fun h => List.not_mem_nil h.1]
  early n := by rw [if_neg fun h => List.not_mem_nil h.1]
  pending n := by rw [if_neg fun h => List.not_mem_nil h.1]
  stack_nodup := List.nodup_nil
  stack_subset := List.nil_subset _
  shown_nodup := List.nodup_nil
  shown_subset := List.nil_subset _

theorem finished_of_stack (h : Weave w base begun stack shown r) (hd : base.Fresh d)
    (hs : d ∈ stack) : r.store.finished[d]? = none := by
  rw [h.finished, if_neg fun hb => hb.2 hs, hd.finished]

theorem finished_of_new (h : Weave w base begun stack shown r) (hd : base.Fresh d)
    (hb : d ∉ begun) : r.store.finished[d]? = none := by
  rw [h.finished, if_neg fun hd => hb hd.1, hd.finished]

theorem isUnderway_of_fresh (h : Weave w base begun stack shown r) (hd : base.Fresh d) :
    r.marks.isUnderway d = decide (d ∈ stack) := by
  simp only [h.marks, Marks.isUnderway, Marks.isMarked, Marks.under, hd.tracked, List.mem_append,
    hd.unmarked, or_false, not_false_eq_true, decide_true, Bool.true_and]

section Requests

variable (h : Weave w base begun stack shown r) (hd : base.Fresh d)
  (ho : base.store.closed = false)
include h hd

theorem obtain_done (hb : d ∈ begun) (hs : d ∉ stack) :
    r.obtain d factory = .reply (.made (.ok (w.object d))) r [.finishedFound d] := by
  apply Registry.obtain_finished hd.named
  rw [h.finished, if_pos ⟨hb, hs⟩]

include ho

theorem obtain_shown (hs : d ∈ stack) (he : d ∈ shown) :
    r.obtain d factory = .reply (.made (.ok (w.object d))) r [.earlyFound d] := by
  apply Registry.obtain_early hd.named (h.finished_of_stack hd hs) (h.closed.trans ho)
  · rw [h.isUnderway_of_fresh hd, decide_eq_true hs]
  · rw [h.early, if_pos ⟨hs, he⟩]

theorem obtain_unshown (hs : d ∈ stack) (he : d ∉ shown) :
    r.obtain d factory =
      .expose d .obtain (w.early d) { r with store := r.store.takePending d } := by
  apply Registry.obtain_pending hd.named (h.finished_of_stack hd hs) (h.closed.trans ho)
  · rw [h.isUnderway_of_fresh hd, decide_eq_true hs]
  · rw [h.early, if_neg fun hse => he hse.2, hd.early]
  · rw [h.pending, if_pos ⟨hs, he⟩]

theorem obtain_new (hb : d ∉ begun) :
    r.obtain d factory = .construct d r.marks.window.isNone factory (r.begun d) := by
  apply Registry.obtain_fresh hd.named (h.finished_of_new hd hb) (h.closed.trans ho)
  rw [h.isUnderway_of_fresh hd]
  exact decide_eq_false fun hs => hb (h.stack_subset hs)

end Requests

theorem begin (h : Weave w base begun stack shown r) (hd : base.Fresh d) (hb : d ∉ begun) :
    (r.begun d).defer d (w.early d) =
        .reply (.settled (.ok ())) (r.entered d (w.early d)) [.earlyDeferred d] ∧
      Weave w base (begun ++ [d]) (d :: stack) shown (r.entered d (w.early d)) := by
  have hs : d ∉ stack := fun hs => hb (h.stack_subset hs)
  have hm : (r.begun d).marks = base.marks.under (d :: stack) := by
    simp only [Registry.begun, h.marks, Marks.under, hd.tracked, ↓reduceIte, reduceCtorEq,
      List.cons_append]
    split <;> simp only [Option.getD_some]
  have hu : (r.begun d).marks.isUnderway d = true := by
    simp only [hm, Marks.isUnderway, Marks.isMarked, Marks.under, hd.tracked, not_false_eq_true,
      decide_true, List.cons_append, List.mem_cons_self, Bool.and_self]
  refine ⟨Registry.defer_underway hd.named (h.finished_of_new hd hb) hu, ?_⟩
  constructor
  case links => exact h.links
  case edges => exact h.edges
  case disposers => exact h.disposers
  case marks => exact hm
  case closed => exact h.closed
  case filed =>
    have hf : d ∉ r.store.filed := by
      simp only [h.filed, List.mem_append, hd.unfiled, hb, or_self, not_false_eq_true]
    change (if d ∈ r.store.filed then r.store.filed else r.store.filed ++ [d]) = _
    rw [if_neg hf, h.filed, List.append_assoc]
  case finished =>
    intro n
    change r.store.finished[n]? = _
    rw [h.finished]
    by_cases hn : n = d
    · simp only [hn, hb, false_and, List.mem_cons_self, not_true_eq_false, and_false, ↓reduceIte]
    · simp only [List.mem_append, List.mem_cons, List.not_mem_nil, hn, or_self, or_false, false_or]
  case early =>
    intro n
    change (r.store.early.erase d)[n]? = _
    rw [NameMap.getElem?_erase, h.early]
    by_cases hn : d = n
    · subst hn
      have he : d ∉ shown := fun he => hb (h.shown_subset he)
      simp only [he, and_false, ↓reduceIte, hd.early]
    · simp only [hn, ↓reduceIte, List.mem_cons, Ne.symm hn, false_or]
  case pending =>
    intro n
    change (r.store.pending.insert d (w.early d))[n]? = _
    rw [NameMap.getElem?_insert, h.pending]
    by_cases hn : d = n
    · subst hn
      have he : d ∉ shown := fun he => hb (h.shown_subset he)
      simp only [↓reduceIte, List.mem_cons_self, he, not_false_eq_true, and_self]
    · simp only [hn, ↓reduceIte, List.mem_cons, Ne.symm hn, false_or]
  case stack_nodup => exact List.nodup_cons.2 ⟨hs, h.stack_nodup⟩
  case stack_subset =>
    rw [List.cons_subset]
    exact ⟨List.mem_append_right _ (List.mem_singleton_self d),
      List.subset_append_of_subset_left _ h.stack_subset⟩
  case shown_nodup => exact h.shown_nodup
  case shown_subset => exact List.subset_append_of_subset_left _ h.shown_subset

theorem expose (h : Weave w base begun stack shown r) (hd : base.Fresh d) (hs : d ∈ stack)
    (he : d ∉ shown) :
    Weave w base begun stack (shown ++ [d])
      ({ r with store := r.store.takePending d }.expose d (w.object d)) := by
  constructor
  case links => exact h.links
  case edges => exact h.edges
  case disposers => exact h.disposers
  case marks => exact h.marks
  case closed => exact h.closed
  case filed => exact h.filed
  case finished => exact h.finished
  case early =>
    intro n
    change (r.store.early.insert d (w.object d))[n]? = _
    rw [NameMap.getElem?_insert, h.early]
    by_cases hn : d = n
    · subst hn
      simp only [↓reduceIte, hs, List.mem_append, List.mem_singleton, or_true, and_self]
    · simp only [hn, ↓reduceIte, List.mem_append, List.mem_singleton, Ne.symm hn, or_false]
  case pending =>
    intro n
    change (r.store.pending.erase d)[n]? = _
    rw [NameMap.getElem?_erase, h.pending]
    by_cases hn : d = n
    · subst hn
      simp only [↓reduceIte, List.mem_append, List.mem_singleton, or_true, not_true_eq_false,
        and_false, hd.pending]
    · simp only [hn, ↓reduceIte, List.mem_append, List.mem_singleton, Ne.symm hn, or_false]
  case stack_nodup => exact h.stack_nodup
  case stack_subset => exact h.stack_subset
  case shown_nodup =>
    rw [← List.concat_eq_append]
    exact h.shown_nodup.concat he
  case shown_subset =>
    rw [List.append_subset, List.cons_subset]
    exact ⟨h.shown_subset, h.stack_subset hs, List.nil_subset _⟩

theorem finish (h : Weave w base begun (d :: stack) shown r) (hd : base.Fresh d) :
    Weave w base begun stack shown
      (r.complete d (base.marks.under stack).window.isNone (.ok (w.object d))).2.1 := by
  have hs : d ∉ stack := (List.nodup_cons.1 h.stack_nodup).1
  have hb : d ∈ begun := h.stack_subset List.mem_cons_self
  constructor
  case links => exact h.links
  case edges => exact h.edges
  case disposers => exact h.disposers
  case marks =>
    change (if (base.marks.under stack).window.isNone then r.marks.closeWindow
      else r.marks).leave d = _
    rw [h.marks]
    exact base.marks.leave_under stack hd.tracked
  case closed => exact h.closed
  case filed =>
    have hf : d ∈ r.store.filed := by
      rw [h.filed]
      exact List.mem_append_right _ hb
    change (if d ∈ r.store.filed then r.store.filed else r.store.filed ++ [d]) = _
    rw [if_pos hf, h.filed]
  case finished =>
    intro n
    change (r.store.finished.insert d (w.object d))[n]? = _
    rw [NameMap.getElem?_insert, h.finished]
    by_cases hn : d = n
    · subst hn
      simp only [↓reduceIte, hb, hs, not_false_eq_true, and_self]
    · simp only [hn, ↓reduceIte, List.mem_cons, Ne.symm hn, false_or]
  case early =>
    intro n
    change (r.store.early.erase d)[n]? = _
    rw [NameMap.getElem?_erase, h.early]
    by_cases hn : d = n
    · subst hn
      simp only [↓reduceIte, hs, false_and, hd.early]
    · simp only [hn, ↓reduceIte, List.mem_cons, Ne.symm hn, false_or]
  case pending =>
    intro n
    change (r.store.pending.erase d)[n]? = _
    rw [NameMap.getElem?_erase, h.pending]
    by_cases hn : d = n
    · subst hn
      simp only [↓reduceIte, hs, false_and, hd.pending]
    · simp only [hn, ↓reduceIte, List.mem_cons, Ne.symm hn, false_or]
  case stack_nodup => exact (List.nodup_cons.1 h.stack_nodup).2
  case stack_subset => exact List.Subset.trans (List.subset_cons_self d stack) h.stack_subset
  case shown_nodup => exact h.shown_nodup
  case shown_subset => exact h.shown_subset

section Done

variable (h : Weave w base begun [] shown r)
include h

theorem frame : r = { base with store := r.store } := by
  obtain ⟨links, ⟨underway, exempt, window⟩, store, edges, disposers⟩ := r
  obtain rfl := h.links
  obtain rfl := h.edges
  obtain rfl := h.disposers
  have hm : Marks.mk underway exempt window = base.marks := h.marks
  rw [hm]

theorem early_eq : r.store.early = base.store.early := by
  apply Std.ExtTreeMap.ext_getElem?
  intro n
  rw [h.early, if_neg fun hn => List.not_mem_nil hn.1]

theorem pending_eq : r.store.pending = base.store.pending := by
  apply Std.ExtTreeMap.ext_getElem?
  intro n
  rw [h.pending, if_neg fun hn => List.not_mem_nil hn.1]

end Done

theorem names (h : Weave w base begun [] shown r) (hb : ∀ n ∈ begun, base.Fresh n) :
    r.store.names = base.store.names ++ begun := by
  have hc : ∀ n, r.store.finished.contains n = true ↔
      n ∈ begun ∨ base.store.finished.contains n = true := by
    intro n
    rw [Std.ExtTreeMap.contains_eq_isSome_getElem?, Std.ExtTreeMap.contains_eq_isSome_getElem?,
      h.finished]
    by_cases hn : n ∈ begun
    · simp only [hn, List.not_mem_nil, not_false_eq_true, and_self, ↓reduceIte, Option.isSome_some,
        true_or]
    · simp only [hn, false_and, ↓reduceIte, false_or]
  rw [Store.names, h.filed, List.filter_append, Store.names]
  congr 1
  · apply List.filter_congr
    intro n hn
    rw [Bool.eq_iff_iff, hc]
    constructor
    · rintro (hnb | hf)
      · exact absurd hn (hb n hnb).unfiled
      · exact hf
    · exact .inr
  · rw [List.filter_eq_self]
    exact fun n hn => (hc n).2 (.inl hn)

end Weave

end ObjectRegistry
