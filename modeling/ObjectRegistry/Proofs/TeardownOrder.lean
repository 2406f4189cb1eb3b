import Mathlib.Data.List.Nodup
import ObjectRegistry.Proofs.Coverage

namespace ObjectRegistry

variable {σ ρ κ : Type}

namespace Walk

variable {e : Edges} {alive : Name → Prop} {w w' : Walk κ} {r r' : Registry κ} {n x y : Name}

structure Once (w : Walk κ) (r : Registry κ) : Prop where
  gone : ∀ {n}, n ∈ w.report.destroyed → ¬r.Alive n ∧ ¬w.Due n
  nodup : w.report.destroyed.Nodup

theorem Once.quiet (h : Once w r) (ho : Orderly e w r) (hq : Quiet w r w' r') : Once w' r' := by
  have hgone : ∀ {n}, n ∈ w.report.destroyed → ¬r'.Alive n ∧ ¬w'.Due n := by
    intro n hn
    obtain ⟨halive, hdue⟩ := h.gone hn
    refine ⟨fun hn' => halive (hq.alive hn'), fun hn' => ?_⟩
    obtain hn' | hn' := hq.due hn'
    · exact hdue hn'
    · exact halive hn'
  obtain hd | ⟨n, callback, htasks, hd⟩ := hq.report_inv
  · refine ⟨fun hn => hgone (hd ▸ hn), hd ▸ h.nodup⟩
  · have hmem : .dispose n callback true ∈ w.tasks := htasks ▸ List.mem_cons_self
    have hdead : ¬r.Alive n := ho.visited (ho.entered hmem rfl)
    have hlast : ¬w'.Due n := by
      rintro ⟨callback', hc⟩
      have hstacked := ho.stacked
      rw [htasks] at hstacked
      exact Edges.Undercuts.ne ((List.pairwise_cons.1 hstacked).1 _ hc) rfl
    constructor
    · intro k hk
      rw [hd] at hk
      obtain hk | hk := List.mem_append.1 hk
      · exact hgone hk
      · obtain rfl := List.mem_singleton.1 hk
        exact ⟨fun hn => hdead (hq.alive hn), hlast⟩
    · rw [hd, ← List.concat_eq_append]
      exact h.nodup.concat fun hn => (h.gone hn).2 ⟨callback, hmem⟩

theorem split_enters {names : List Name} {rest above below : List (Task κ)} {t : Task κ}
    (ht : ∀ n, t ≠ .enter n) (h : names.map .enter ++ rest = above ++ t :: below) :
    ∃ mid, above = names.map .enter ++ mid ∧ rest = mid ++ t :: below := by
  induction names generalizing above with
  | nil => exact ⟨above, rfl, h⟩
  | cons n names ih =>
    cases above with
    | nil =>
      injection h with hn _
      exact absurd hn.symm (ht n)
    | cons u above =>
      injection h with hu h
      obtain ⟨mid, rfl, hrest⟩ := ih h
      exact ⟨mid, by rw [← hu]; rfl, hrest⟩

/-- When the report of `x` is due, that of `y` is not due below it, and if `y` is still to be torn
down then its entry stands above. Once `x` is reported, `y` was reported before or never will be. -/
structure Before (y x : Name) (w : Walk κ) (r : Registry κ) : Prop where
  waiting : ∀ {above callback below}, w.tasks = above ++ .dispose x callback true :: below →
    (∀ callback', .dispose y callback' true ∉ below) ∧ (r.Alive y → .enter y ∈ above)
  reported : x ∈ w.report.destroyed →
    ¬r.Alive y ∧ ¬w.Due y ∧ (y ∈ w.report.destroyed → [y, x].Sublist w.report.destroyed)

theorem Orderly.not_alive_of_enter (h : Orderly e w r) (hq : Quiet w r w' r')
    {rest : List (Task κ)} (hw : w.tasks = .enter n :: rest) : ¬r'.Alive n := by
  cases hq with
  | start | contained | forget | sweep => cases hw
  | dispose outcome => cases hw
  | again hn =>
    cases hw
    exact h.visited hn
  | enter hn =>
    cases hw
    exact fun hn => (Registry.alive_claim.1 hn).2 rfl

theorem Orderly.not_due_of_enter (h : Orderly e w r) {rest : List (Task κ)}
    (hw : w.tasks = .enter x :: rest) (hne : x ≠ y) (hcut : ¬e.Undercuts y x)
    (callback : Option κ) : .dispose y callback true ∉ rest := by
  intro hmem
  have hstacked := h.stacked
  rw [hw] at hstacked
  obtain hxy | hxy := (List.pairwise_cons.1 hstacked).1 _ hmem
  · exact hne hxy
  · exact hcut hxy

theorem Before.waiting_quiet (h : Before y x w r) (ho : Orderly e w r) (hq : Quiet w r w' r')
    (hne : x ≠ y) (hy : y ∈ e.dependentsOf x) (hcut : ¬e.Undercuts y x)
    {above below : List (Task κ)} {callback : Option κ}
    (hw' : w'.tasks = above ++ .dispose x callback true :: below) :
    (∀ callback', .dispose y callback' true ∉ below) ∧ (r'.Alive y → .enter y ∈ above) := by
  obtain ⟨task, rest, hw, hnew⟩ := hq.tasks_inv
  -- A disposal of `x` that stood in `rest` keeps what stood over it, the head apart.
  have hold : ∀ {mid}, rest = mid ++ .dispose x callback true :: below →
      (∀ callback', .dispose y callback' true ∉ below) ∧ (r'.Alive y → .enter y ∈ mid) := by
    intro mid hrest
    rw [hrest] at hw
    have hw : w.tasks = (task :: mid) ++ .dispose x callback true :: below := hw
    obtain ⟨hbelow, habove⟩ := h.waiting hw
    refine ⟨hbelow, fun halive => ?_⟩
    obtain rfl | hmid := List.mem_cons.1 (habove (hq.alive halive))
    · exact absurd halive (ho.not_alive_of_enter hq hw)
    · exact hmid
  obtain ⟨names, hn⟩ | ⟨n, rfl, hn, hn'⟩ := hnew
  · obtain ⟨mid, rfl, hrest⟩ := split_enters (fun n hn => by cases hn) (hn.symm.trans hw')
    obtain ⟨hbelow, habove⟩ := hold hrest
    exact ⟨hbelow, fun halive => List.mem_append_right _ (habove halive)⟩
  · rw [hn'] at hw'
    obtain ⟨mid, rfl, hmid⟩ := split_enters (fun n hn => by cases hn) hw'
    cases mid with
    | cons u mid =>
      injection hmid with _ hmid
      obtain - | ⟨u, mid⟩ := mid
      · cases hmid
      injection hmid with _ hmid
      obtain - | ⟨u, mid⟩ := mid
      · cases hmid
      injection hmid with _ hmid
      obtain ⟨hbelow, habove⟩ := hold hmid
      refine ⟨hbelow, fun halive => ?_⟩
      simp only [List.mem_append, List.mem_cons, habove halive, or_true]
    | nil =>
      injection hmid with hdispose hbelow
      injection hdispose with hnx _ hclaimed
      subst hnx hbelow
      have hx : r.Alive n := by
        rw [Registry.Alive, Disposers.has, ← Bool.or_eq_true]
        exact hclaimed
      refine ⟨fun callback' hmem => ?_, fun halive => ?_⟩
      · simp only [List.mem_cons, reduceCtorEq, false_or] at hmem
        exact ho.not_due_of_enter hw hne hcut callback' hmem
      · rw [List.append_nil]
        exact List.mem_map_of_mem (ho.kept hx (hq.alive halive) hy)

theorem Before.quiet (h : Before y x w r) (ho : Orderly e w r) (hq : Quiet w r w' r')
    (hne : x ≠ y) (hy : y ∈ e.dependentsOf x) (hcut : ¬e.Undercuts y x) : Before y x w' r' := by
  have hgone : ¬r.Alive y → ¬w.Due y → ¬r'.Alive y ∧ ¬w'.Due y := by
    intro halive hdue
    refine ⟨fun hn => halive (hq.alive hn), fun hn => ?_⟩
    obtain hn | hn := hq.due hn
    · exact hdue hn
    · exact halive hn
  refine ⟨h.waiting_quiet ho hq hne hy hcut, fun hx => ?_⟩
  obtain hd | ⟨n, callback, htasks, hd⟩ := hq.report_inv
  · rw [hd] at hx ⊢
    obtain ⟨halive, hdue, horder⟩ := h.reported hx
    obtain ⟨halive', hdue'⟩ := hgone halive hdue
    exact ⟨halive', hdue', horder⟩
  have hkeep : y ≠ n → y ∈ w'.report.destroyed → y ∈ w.report.destroyed := by
    intro hyn hy
    rw [hd, List.mem_append, List.mem_singleton] at hy
    exact hy.resolve_right hyn
  by_cases hxd : x ∈ w.report.destroyed
  · obtain ⟨halive, hdue, horder⟩ := h.reported hxd
    obtain ⟨halive', hdue'⟩ := hgone halive hdue
    refine ⟨halive', hdue', fun hy => ?_⟩
    have hyn : y ≠ n := by
      rintro rfl
      exact hdue ⟨callback, htasks ▸ List.mem_cons_self⟩
    rw [hd]
    exact (horder (hkeep hyn hy)).trans (List.sublist_append_left _ _)
  · rw [hd, List.mem_append, List.mem_singleton] at hx
    obtain rfl := hx.resolve_left hxd
    have htasks : w.tasks = [] ++ .dispose x callback true :: w'.tasks := htasks
    obtain ⟨hbelow, habove⟩ := h.waiting htasks
    refine ⟨fun hn => List.not_mem_nil (habove (hq.alive hn)), fun ⟨callback', hc⟩ =>
      hbelow callback' hc, fun hy => ?_⟩
    rw [hd]
    exact (List.singleton_sublist.2 (hkeep (Ne.symm hne) hy)).append (List.Sublist.refl [x])

theorem Untouched.once (h : w.Untouched) : Once w r where
  gone hn := absurd hn (h.report ▸ List.not_mem_nil)
  nodup := h.report ▸ List.nodup_nil

theorem Untouched.before (h : w.Untouched) : Before y x w r where
  waiting hw := by
    have hd := h.tasks (.dispose x _ true) (hw ▸ List.mem_append_right _ List.mem_cons_self)
    cases hd
  reported hx := absurd hx (h.report ▸ List.not_mem_nil)

theorem Quiets.nodup (h : w.Untouched) (hq : Quiets w r w' r') : w'.report.destroyed.Nodup := by
  have hkeep := hq.keeps (P := fun w r' => Orderly r.edges w r' ∧ Once w r') ⟨h.orderly, h.once⟩
    fun ⟨ho, honce⟩ hq => ⟨ho.quiet hq, honce.quiet ho hq⟩
  exact hkeep.2.nodup

theorem Quiets.before (h : w.Untouched) (hq : Quiets w r w' r') (hne : x ≠ y)
    (hy : y ∈ r.edges.dependentsOf x) (hcut : ¬r.edges.Undercuts y x)
    (hx' : x ∈ w'.report.destroyed) (hy' : y ∈ w'.report.destroyed) :
    [y, x].Sublist w'.report.destroyed := by
  have hkeep := hq.keeps (P := fun w r' => Orderly r.edges w r' ∧ Before y x w r')
    ⟨h.orderly, h.before⟩ fun ⟨ho, hb⟩ hq => ⟨ho.quiet hq, hb.quiet ho hq hne hy hcut⟩
  exact (hkeep.2.reported hx').2.2 hy'

/-- Until `y` is reported, nothing stands below its disposal but the rest of its own teardown. Once
it is reported, `x` was reported before. -/
def Overtakes (x y : Name) (w : Walk κ) : Prop :=
  (∃ above callback, w.tasks = above ++ [.dispose y callback true, .contained y, .forget y]) ∨
    [x, y].Sublist w.report.destroyed

theorem Covers.reported_of_undercuts (h : Covers e alive w r) (ho : Orderly e w r)
    {callback : Option κ} (hw : w.tasks = [.dispose y callback true, .contained y, .forget y])
    (hx : alive x) (hcut : e.Undercuts y x) : x ∈ w.report.destroyed := by
  have hy : y ∈ w.visited := ho.entered (hw ▸ List.mem_cons_self) rfl
  have hv : x ∈ w.visited := by
    apply h.of_undercuts hy ?_ ?_ hcut
    · intro s hs
      simp only [hw, List.mem_cons, reduceCtorEq, List.not_mem_nil, or_self] at hs
    · intro k hk
      simpa only [hw, List.mem_cons, reduceCtorEq, List.not_mem_nil, or_false, false_or,
        Task.contained.injEq] using hk
  obtain hx | ⟨callback', hc⟩ | hx := h.accounted hx
  · exact absurd hx (ho.visited hv)
  · simp only [hw, List.mem_cons, reduceCtorEq, List.not_mem_nil, or_false,
      Task.dispose.injEq] at hc
    exact absurd hc.1 hcut.ne
  · exact hx

theorem Overtakes.quiet (h : Overtakes x y w) (hc : Covers e alive w r) (ho : Orderly e w r)
    (hq : Quiet w r w' r') (hx : alive x) (hcut : e.Undercuts y x) : Overtakes x y w' := by
  obtain ⟨above, callback, hw⟩ | hdone := h
  · cases above with
    | nil =>
      have hx := hc.reported_of_undercuts ho hw hx hcut
      right
      cases hq with
      | dispose outcome =>
        cases hw
        exact (List.singleton_sublist.2 hx).append (List.Sublist.refl [y])
      | _ => cases hw
    | cons task above =>
      left
      obtain ⟨top, hw'⟩ := hq.tasks_above hw
      exact ⟨top ++ above, callback, hw'.trans (List.append_assoc ..).symm⟩
  · right
    obtain hd | ⟨n, callback, -, hd⟩ := hq.report_inv
    · rwa [hd]
    · rw [hd]
      exact hdone.trans (List.sublist_append_left _ _)

theorem Quiets.overtakes (hq : Quiets (.one y) r w' r') (hw' : w'.tasks = []) (hx : r.Alive x)
    (hy : r.Alive y) (hcut : r.edges.Undercuts y x) : [x, y].Sublist w'.report.destroyed := by
  cases hq with
  | refl => cases hw'
  | @head _ w₁ _ _ r₁ _ h rest =>
    have ho : Orderly r.edges (.one y) r := untouched_one.orderly
    have hover : Overtakes x y w₁ := by
      cases h with
      | again hn => cases hn
      | enter hn =>
        exact .inl ⟨_, _, enter_tasks_of_alive hy⟩
    have hkeep := rest.keeps
      (P := fun w r' => Orderly r.edges w r' ∧ Covers r.edges r.Alive w r' ∧ Overtakes x y w)
      ⟨ho.quiet h, (covers_one y r).quiet ho h, hover⟩
      fun ⟨ho, hc, hv⟩ hq => ⟨ho.quiet hq, hc.quiet ho hq, hv.quiet hc ho hq hx hcut⟩
    obtain ⟨above, callback, hw⟩ | hdone := hkeep.2.2
    · rw [hw'] at hw
      cases above <;> cases hw
    · exact hdone

end Walk

namespace Machine

variable [Language ρ κ] {client : Client σ ρ κ} {m : Machine σ ρ κ} {op : Op κ}

section Report

variable (hd : m.deed = .asked op) (hop : op = .destroyAll ∨ ∃ n, op = .destroy n)
  (hs : ∀ entry ∈ m.registry.disposers.entries, (client.disposer entry.2).Silent)
include hd hop hs

theorem dependents_before_needed :
    ∃ report, m.Answers client (.report report) ∧ report.destroyed.Nodup ∧
      ∀ x y, y ∈ m.registry.edges.dependentsOf x → x ≠ y → ¬m.registry.edges.Undercuts y x →
        x ∈ report.destroyed → y ∈ report.destroyed → [y, x].Sublist report.destroyed := by
  obtain ⟨w, r, events, hstart, hu, hedges, -, hcallbacks⟩ := Walk.untouched_of_start hop m.registry
  have hsilent := hcallbacks (fun callback => (client.disposer callback).Silent) hs
  obtain ⟨w', r', hq, -, ha⟩ := tearDown_answers hd hstart hsilent
  rw [← hedges]
  exact ⟨w'.report, ha, hq.nodup hu, fun x y hy hne hcut => hq.before hu hne hy hcut⟩

/-- Where nothing contains anything and no chain of dependents comes back to where it began, all
dependents are reported before what they need. -/
theorem dependents_first_of_acyclic (hacyclic : m.registry.edges.Acyclic)
    (hc : ∀ n, m.registry.edges.containedIn n = []) :
    ∃ report, m.Answers client (.report report) ∧
      ∀ x y, y ∈ m.registry.edges.dependentsOf x → x ∈ report.destroyed →
        y ∈ report.destroyed → [y, x].Sublist report.destroyed := by
  obtain ⟨report, ha, -, hbefore⟩ := dependents_before_needed hd hop hs
  refine ⟨report, ha, fun x y hy => hbefore x y hy ?_ (hacyclic.not_undercuts hc hy)⟩
  rintro rfl
  exact hacyclic x (.single hy)

/-- A teardown whose destroy callbacks keep to themselves ends in a report with no name twice.
Dependents are reported before what they need, as long as they do not undercut it. Those that do
are reported after it when the teardown is their own. -/
theorem report_order :
    ∃ report, m.Answers client (.report report) ∧ report.destroyed.Nodup ∧
      (∀ x y, y ∈ m.registry.edges.dependentsOf x → x ≠ y → ¬m.registry.edges.Undercuts y x →
        x ∈ report.destroyed → y ∈ report.destroyed → [y, x].Sublist report.destroyed) ∧
      ∀ x y, op = .destroy y → m.registry.Alive x → m.registry.Alive y →
        m.registry.edges.Undercuts y x → [x, y].Sublist report.destroyed := by
  obtain ⟨report, ha, hnodup, hbefore⟩ := dependents_before_needed hd hop hs
  refine ⟨report, ha, hnodup, hbefore, ?_⟩
  rintro x y rfl hx hy hcut
  obtain ⟨w', r', hq, hend, ha'⟩ := tearDown_answers hd rfl (Walk.Callbacks.one hs)
  obtain rfl := Answer.report.inj (ha.unique ha')
  exact hq.overtakes hend hx hy hcut

end Report

section Entangled

def idle : Client Unit (Request Unit) Unit where
  factory _ := return .ok ⟨0, .unit⟩
  early _ := return ⟨0, .unit⟩
  disposer _ := return .ok ()
  hear _ memory := memory

def entangled : Machine Unit (Request Unit) Unit :=
  run idle 6 (.ofMain ({} : Settings).registry () (do
    let _ ← .ask (.install "x" ⟨0, .unit⟩)
    let _ ← .ask (.install "y" ⟨1, .unit⟩)
    let _ ← .ask (.install "z" ⟨2, .unit⟩)
    let _ ← .ask (.addDependency "x" "y")
    let _ ← .ask (.addDependency "y" "z")
    let _ ← .ask (.addContainment "z" "x")
    let _ ← .ask (.destroy "y")))

theorem entangled_undercuts : entangled.registry.edges.Undercuts "y" "x" :=
  ⟨"z", by decide, by decide, .single ⟨.inr (by decide), by decide⟩⟩

theorem entangled_acyclic : entangled.registry.edges.Acyclic := by
  apply Edges.acyclic_of_rank fun n => if n = "x" then 0 else if n = "y" then 1 else 2
  intro a b hb
  have hkeys : entangled.registry.edges.dependents.keys = ["x", "y"] := by decide
  have ha := Adjacency.mem_keys_of_members _ _ (List.ne_nil_of_mem hb)
  rw [hkeys] at ha
  have hall : ∀ a ∈ ["x", "y"], ∀ b ∈ entangled.registry.edges.dependentsOf a,
      (if a = "x" then 0 else if a = "y" then 1 else 2) <
        if b = "x" then 0 else if b = "y" then 1 else 2 := by decide
  exact hall a ha b hb

theorem report_order_entangled :
    entangled.deed = .asked (.destroy "y") ∧ entangled.registry.disposers.entries = [] ∧
      ∃ report, entangled.Answers idle (.report report) ∧ ["x", "y"].Sublist report.destroyed := by
  have hd : entangled.deed = .asked (.destroy "y") := rfl
  have he : entangled.registry.disposers.entries = [] := rfl
  have hs : ∀ entry ∈ entangled.registry.disposers.entries, (idle.disposer entry.2).Silent := by
    rw [he]
    exact List.forall_mem_nil _
  obtain ⟨report, ha, -, -, hcut⟩ := report_order hd (.inr ⟨"y", rfl⟩) hs
  exact ⟨hd, he, report, ha,
    hcut "x" "y" rfl (.inl (by decide)) (.inl (by decide)) entangled_undercuts⟩

/-- A dependent is torn down after what it needs. -/
theorem reported_after_needed :
    entangled.Reachable idle ∧ entangled.registry.edges.Acyclic ∧
      entangled.registry.disposers.entries = [] ∧
      "y" ∈ entangled.registry.edges.dependentsOf "x" ∧
      entangled.deed = .asked (.destroy "y") ∧
      ∃ report, entangled.Answers idle (.report report) ∧
        report.destroyed = ["z", "x", "y"] := by
  have hr : entangled.Reachable idle := ⟨{}, (), _, 6, rfl⟩
  refine ⟨hr, entangled_acyclic, rfl, by decide, rfl, ⟨["z", "x", "y"], []⟩, ⟨15, rfl, ?_⟩, rfl⟩
  decide

end Entangled

end Machine

end ObjectRegistry
