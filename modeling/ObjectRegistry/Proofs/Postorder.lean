import ObjectRegistry.Proofs.Mirror
import ObjectRegistry.Proofs.TeardownOrder

namespace ObjectRegistry

variable {σ ρ κ : Type}

namespace Edges

/-- `y` depends on `x`, or on something that does, or is `x`. -/
def RestsOn (e : Edges) (y x : Name) : Prop :=
  Relation.ReflTransGen (fun a b => b ∈ e.dependentsOf a) x y

/-- A chain of dependents leads from `x` to `y` on which no name is held, `x` itself apart. -/
def LeadsPast (e : Edges) (held : Name → Prop) (x y : Name) : Prop :=
  Relation.ReflTransGen (fun a b => b ∈ e.dependentsOf a ∧ ¬held b) x y

variable {e : Edges} {x y : Name}

theorem restsOn_of_undercuts (hc : ∀ n, e.containedIn n = []) (h : e.Undercuts y x) :
    e.RestsOn x y := by
  obtain ⟨d, hd, -, hp⟩ := h
  refine Relation.ReflTransGen.head hd (Relation.ReflTransGen.mono (fun a b hab => ?_) _ _ hp)
  refine hab.1.resolve_right fun hb => ?_
  rw [hc] at hb
  cases hb

theorem LeadsPast.mono {p q : Name → Prop} (hpq : ∀ n, q n → p n) (h : e.LeadsPast p x y) :
    e.LeadsPast q x y :=
  Relation.ReflTransGen.mono (fun _ b hab => ⟨hab.1, mt (hpq b) hab.2⟩) _ _ h

theorem LeadsPast.not_held {p : Name → Prop} (h : e.LeadsPast p x y) (hne : y ≠ x) : ¬p y := by
  cases h with
  | refl => exact absurd rfl hne
  | tail _ hy => exact hy.2

theorem RestsOn.leadsPast {p : Name → Prop} (h : e.RestsOn y x) (hp : ∀ c, e.RestsOn c x → ¬p c) :
    e.LeadsPast p x y := by
  induction h with
  | refl => exact .refl
  | @tail a b hab hb ih => exact ih.tail ⟨hb, hp b (hab.tail hb)⟩

end Edges

namespace Registry

variable {r : Registry κ} {n k : Name}

def Cleared (r : Registry κ) (n : Name) : Prop := ¬r.Alive n ∧ r.edges.dependentsOf n = []

theorem cleared_claim_self (r : Registry κ) (n : Name) : (r.claim n).Cleared n := by
  refine ⟨fun h => (alive_claim.1 h).2 rfl, ?_⟩
  change (r.edges.takeDependents n).dependentsOf n = []
  rw [Edges.dependentsOf_takeDependents, if_pos rfl]

theorem cleared_of_claim (h : (r.claim n).Cleared k) (hk : k ≠ n) : r.Cleared k := by
  refine ⟨fun halive => h.1 (alive_claim.2 ⟨halive, hk⟩), ?_⟩
  have hdependents : (r.edges.takeDependents n).dependentsOf k = [] := h.2
  rwa [Edges.dependentsOf_takeDependents, if_neg (Ne.symm hk)] at hdependents

theorem cleared_sweep (r : Registry κ) (n : Name) : r.sweep.Cleared n :=
  ⟨not_alive_sweep, Edges.members_empty⟩

end Registry

def Task.DestroyStepIn (tasks : List (Task κ)) (b : Name) : Prop :=
  ∃ callback claimed, .dispose b callback claimed ∈ tasks

/-- A chain from `x` leads past what is held to the name of the task, or to what that name depends
on if it is yet to be entered. -/
def Task.FromDependents (e : Edges) (held : Name → Prop) (x : Name) : Task κ → Prop
  | .enter s => ∃ a, e.LeadsPast held x a ∧ s ∈ e.dependentsOf a
  | .dispose s _ _ | .contained s | .forget s => e.LeadsPast held x s
  | .start _ | .sweep => False

namespace Walk

def Reports (w : Walk κ) (x : Name) : Prop :=
  ∃ callback rest, w.tasks = .dispose x callback true :: rest

/-- The teardown of `x` begins at `began`. At `ended` its destroy step is next, and is going to
report `x`. -/
def TearsDown (x : Name) (began ended : Walk κ) : Prop :=
  x ∉ began.visited ∧ ∃ rest callback, began.tasks = .enter x :: rest ∧
    ended.tasks = .dispose x callback true :: .contained x :: .forget x :: rest

/-- The next task is part of the teardown of `b`, whose destroy step is still to come. -/
def PartOf (w : Walk κ) (b : Name) : Prop := Task.DestroyStepIn w.tasks.tail b

/-- The entry of `s` stands above the destroy step of `a`. -/
def EntersBefore (w : Walk κ) (s a : Name) : Prop :=
  ∃ above callback claimed below,
    w.tasks = above ++ .dispose a callback claimed :: below ∧ .enter s ∈ above

variable {e : Edges} {w w₁ w' : Walk κ} {r r₁ r' : Registry κ} {n x y : Name}
  {rest : List (Task κ)} {seen : List (Walk κ)} {before : List Name}

theorem Quiet.cleared (hq : Quiet w r w' r') (h : r.Cleared n) : r'.Cleared n := by
  refine ⟨fun hn => h.1 (hq.alive hn), List.sublist_nil.1 ?_⟩
  rw [← h.2]
  exact (hq.fewer n).1

theorem Quiet.visited_of_enter (hq : Quiet w r w' r')
    (hw : w.tasks = .enter n :: rest) : n ∈ w'.visited := by
  cases hq with
  | again hn =>
    cases hw
    exact hn
  | enter hn =>
    cases hw
    exact List.mem_cons_self
  | start | dispose | contained | forget | sweep => cases hw

theorem EntersBefore.quiet {s a : Name} (h : w.EntersBefore s a) (hq : Quiet w r w' r') :
    s ∈ w'.visited ∨ w'.EntersBefore s a := by
  obtain ⟨above, callback, claimed, below, hw, hmem⟩ := h
  obtain - | ⟨task, mid⟩ := above
  · cases hmem
  obtain rfl | hmem := List.mem_cons.1 hmem
  · exact .inl (hq.visited_of_enter hw)
  · obtain ⟨top, hw'⟩ := hq.tasks_above hw
    exact .inr ⟨top ++ mid, callback, claimed, below, hw'.trans (List.append_assoc ..).symm,
      List.mem_append_right top hmem⟩

theorem EntersBefore.partOf {s a : Name} (h : w.EntersBefore s a) : w.PartOf a := by
  obtain ⟨above, callback, claimed, below, hw, hmem⟩ := h
  obtain - | ⟨top, mid⟩ := above
  · cases hmem
  · refine ⟨callback, claimed, ?_⟩
    rw [hw]
    exact List.mem_append_right mid List.mem_cons_self

/-- What holds at every point of a teardown of a registry that had the edges `e`. The dependents of
a name that is cleared are cleared, or their entries stand over its disposal. -/
structure Postorder (e : Edges) (w : Walk κ) (r : Registry κ) : Prop where
  visited : ∀ {n}, n ∈ w.visited → r.Cleared n
  severed : ∀ {a s}, s ∈ e.dependentsOf a → ¬r.Cleared a → s ∈ r.edges.dependentsOf a ∨ r.Cleared s
  cleared : ∀ {a s}, s ∈ e.dependentsOf a → r.Cleared a → r.Cleared s ∨ w.EntersBefore s a
  reported : ∀ {a s}, s ∈ e.dependentsOf a → a ∈ w.report.destroyed → r.Cleared s

theorem Untouched.postorder (h : w.Untouched) : Postorder r.edges w r where
  visited hn := absurd hn (h.visited ▸ List.not_mem_nil)
  severed hs _ := .inl hs
  cleared hs ha := absurd (ha.2 ▸ hs) List.not_mem_nil
  reported _ ha := absurd ha (h.report ▸ List.not_mem_nil)

theorem Postorder.visited_quiet (h : Postorder e w r) (hq : Quiet w r w' r')
    (hn : n ∈ w'.visited) : r'.Cleared n := by
  have hkeep {k : Name} (hk : k ∈ w.visited) : r'.Cleared k := hq.cleared (h.visited hk)
  cases hq with
  | start => cases hn
  | again hk | dispose outcome ho | contained | forget | sweep => exact hkeep hn
  | @enter _ k rest visited report hk =>
    obtain rfl | hn := List.mem_cons.1 hn
    · exact r.cleared_claim_self n
    · exact hkeep hn

/-- A dependent stays recorded until it is cleared or the name itself is entered. -/
theorem Postorder.dependent_quiet (h : Postorder e w r) (ho : Orderly e w r) (hq : Quiet w r w' r')
    {a s : Name} (hs : s ∈ r.edges.dependentsOf a) :
    s ∈ r'.edges.dependentsOf a ∨ r'.Cleared s ∨ r'.Cleared a ∧ w'.EntersBefore s a := by
  have hkeep {k : Name} (hk : r.Cleared k) : r'.Cleared k := hq.cleared hk
  cases hq with
  | start | again hk | dispose outcome ho | contained => exact .inl hs
  | sweep => exact .inr (.inl (r.cleared_sweep s))
  | @enter _ n rest visited report hn =>
    by_cases hna : n = a
    · subst hna
      exact .inr (.inr ⟨r.cleared_claim_self n, _, _, _, _, rfl, List.mem_map_of_mem hs⟩)
    · left
      change s ∈ (r.edges.takeDependents n).dependentsOf a
      rwa [Edges.dependentsOf_takeDependents, if_neg hna]
  | @forget _ n rest visited report =>
    have hn : r.Cleared n := h.visited (ho.entered List.mem_cons_self rfl)
    by_cases hsn : s = n
    · exact .inr (.inl (hkeep (hsn ▸ hn)))
    · have hna : n ≠ a := by
        rintro rfl
        rw [hn.2] at hs
        cases hs
      exact .inl ((r.edges.mem_dependentsOf_forget n a hna hsn).2 hs)

theorem Postorder.severed_quiet (h : Postorder e w r) (ho : Orderly e w r) (hq : Quiet w r w' r')
    {a s : Name} (hs : s ∈ e.dependentsOf a) (ha : ¬r'.Cleared a) :
    s ∈ r'.edges.dependentsOf a ∨ r'.Cleared s := by
  obtain hs | hs := h.severed hs (mt hq.cleared ha)
  · obtain hs | hs | ⟨ha', -⟩ := h.dependent_quiet ho hq hs
    · exact .inl hs
    · exact .inr hs
    · exact absurd ha' ha
  · exact .inr (hq.cleared hs)

theorem Postorder.cleared_quiet (h : Postorder e w r) (ho : Orderly e w r) (hq : Quiet w r w' r')
    {a s : Name} (hs : s ∈ e.dependentsOf a) (ha' : r'.Cleared a) :
    r'.Cleared s ∨ w'.EntersBefore s a := by
  by_cases ha : r.Cleared a
  · obtain hs | hbefore := h.cleared hs ha
    · exact .inl (hq.cleared hs)
    · exact (hbefore.quiet hq).imp_left (h.visited_quiet hq)
  · obtain hs | hs := h.severed hs ha
    · obtain hs | hs | ⟨-, hbefore⟩ := h.dependent_quiet ho hq hs
      · rw [ha'.2] at hs
        cases hs
      · exact .inl hs
      · exact .inr hbefore
    · exact .inl (hq.cleared hs)

theorem Postorder.cleared_or_partOf (h : Postorder e w r) {a s : Name} (hs : s ∈ e.dependentsOf a)
    (ha : r.Cleared a) : r.Cleared s ∨ w.PartOf a :=
  (h.cleared hs ha).imp_right EntersBefore.partOf

theorem Orderly.undercuts_of_partOf (h : Orderly e w r) (hx : w.Reports x) (hy : w.PartOf y) :
    e.Undercuts y x := by
  obtain ⟨callback, rest, hw⟩ := hx
  obtain ⟨callback', claimed, hmem⟩ := hy
  have hstacked := h.stacked
  rw [hw] at hmem hstacked
  exact (List.pairwise_cons.1 hstacked).1 _ hmem

theorem Postorder.cleared_of_reports (h : Postorder e w r) (ho : Orderly e w r) (hx : w.Reports x) :
    r.Cleared x := by
  obtain ⟨callback, rest, hw⟩ := hx
  exact h.visited (ho.entered (hw ▸ List.mem_cons_self) rfl)

theorem Postorder.reported_quiet (h : Postorder e w r) (ho : Orderly e w r) (hq : Quiet w r w' r')
    {a s : Name} (hs : s ∈ e.dependentsOf a) (ha : a ∈ w'.report.destroyed) : r'.Cleared s := by
  obtain ha | ⟨callback, hw⟩ := hq.reported_inv ha
  · exact hq.cleared (h.reported hs ha)
  · have hreports : w.Reports a := ⟨callback, _, hw⟩
    obtain hs | hpart := h.cleared_or_partOf hs (h.cleared_of_reports ho hreports)
    · exact hq.cleared hs
    · exact absurd rfl (ho.undercuts_of_partOf hreports hpart).ne

theorem Quiet.of_reports (hq : Quiet w r w' r') (hx : w.Reports x) :
    w'.tasks = w.tasks.tail ∧ w'.report.destroyed = w.report.destroyed ++ [x] := by
  obtain ⟨callback, rest, hw⟩ := hx
  cases hq with
  | start | again | enter | contained | forget | sweep => cases hw
  | dispose outcome =>
    cases hw
    exact ⟨rfl, rfl⟩

theorem Postorder.quiet (h : Postorder e w r) (ho : Orderly e w r) (hq : Quiet w r w' r') :
    Postorder e w' r' where
  visited := h.visited_quiet hq
  severed := h.severed_quiet ho hq
  cleared := h.cleared_quiet ho hq
  reported := h.reported_quiet ho hq

theorem Quiets.postorder (hq : Quiets w r w' r') (ho : Orderly e w r) (hp : Postorder e w r) :
    Orderly e w' r' ∧ Postorder e w' r' :=
  hq.keeps (P := fun w r => Orderly e w r ∧ Postorder e w r) ⟨ho, hp⟩
    fun ⟨ho, hp⟩ hq => ⟨ho.quiet hq, hp.quiet ho hq⟩

theorem Quiets.destroyed (hq : Quiets w r w' r') :
    ∃ later, w'.report.destroyed = w.report.destroyed ++ later := by
  induction hq with
  | refl => exact ⟨[], (List.append_nil _).symm⟩
  | head h _ ih =>
    obtain ⟨later, ih⟩ := ih
    obtain hd | ⟨n, callback, -, hd⟩ := h.report_inv
    · exact ⟨later, by rw [ih, hd]⟩
    · exact ⟨n :: later, by rw [ih, hd, List.append_assoc]; rfl⟩

theorem Quiets.destroyed_inv (hq : Quiets w r w' r') (hn : n ∈ w'.report.destroyed) :
    r.Alive n ∨ w.Due n ∨ n ∈ w.report.destroyed := by
  induction hq with
  | refl => exact .inr (.inr hn)
  | head h _ ih =>
    obtain ha | hd | hr := ih hn
    · exact .inl (h.alive ha)
    · obtain hd | ha := h.due hd
      · exact .inr (.inl hd)
      · exact .inl ha
    · obtain hr | ⟨callback, hw⟩ := h.reported_inv hr
      · exact .inr (.inr hr)
      · exact .inr (.inl ⟨callback, hw ▸ List.mem_cons_self⟩)

/-- When `x` is about to be reported, all that a chain leads to is cleared, unless the chain comes
to a name whose own teardown that of `x` is a part of. -/
theorem Postorder.cleared_of_leadsPast (h : Postorder e w r) (hx : r.Cleared x)
    (hpart : ¬w.PartOf x)
    (hchain : e.LeadsPast (fun b => w.PartOf b ∧ b ∉ w.report.destroyed) x y) : r.Cleared y := by
  have hall : r.Cleared y ∧ (w.PartOf y → y ∈ w.report.destroyed) := by
    induction hchain with
    | refl => exact ⟨hx, fun hpart' => absurd hpart' hpart⟩
    | @tail a b _ hab ih =>
      obtain ⟨ha, hreported⟩ := ih
      refine ⟨?_, fun hb => Classical.not_not.1 fun hnot => hab.2 ⟨hb, hnot⟩⟩
      obtain hb | hwaits := h.cleared_or_partOf hab.1 ha
      · exact hb
      · exact h.reported hab.1 (hreported hwaits)
  exact hall.1

theorem Quiets.reported_of_cleared (hq : Quiets w r w' r') (hx : w.Reports x)
    (hy : y ∈ w'.report.destroyed) (hne : y ≠ x) (hpart : ¬w.PartOf y) (hcleared : r.Cleared y) :
    y ∈ w.report.destroyed := by
  obtain ha | ⟨callback, hmem⟩ | hy := hq.destroyed_inv hy
  · exact absurd ha hcleared.1
  · obtain ⟨callback', rest, hw⟩ := hx
    rw [hw] at hmem
    obtain hmem | hmem := List.mem_cons.1 hmem
    · cases hmem
      exact absurd rfl hne
    · exact absurd ⟨callback, true, by rwa [hw]⟩ hpart
  · exact hy

theorem Quiet.enter_of_due (hq : Quiet w r w' r') (hx : w'.Due x) (hx₀ : ¬w.Due x) :
    (∃ rest, w.tasks = .enter x :: rest) ∧ x ∉ w.visited ∧ r.Alive x := by
  rw [← and_assoc]
  refine ⟨?_, (hq.due hx).resolve_left hx₀⟩
  obtain ⟨callback, hmem⟩ := hx
  obtain hmem | ⟨k, hk⟩ | ⟨k, rest, hw, hk, -, ht | ht | ht⟩ := hq.mem_tasks_inv hmem
  · exact absurd ⟨callback, hmem⟩ hx₀
  · cases hk
  · obtain ⟨rfl, -⟩ := Task.dispose.inj ht
    exact ⟨⟨rest, hw⟩, hk⟩
  · cases ht
  · cases ht

theorem Passes.begins (hp : Passes w r seen w' r') (hx : x ∈ w'.report.destroyed)
    (hx₀ : x ∉ w.report.destroyed) (hdue : ¬w.Due x) :
    ∃ earlier began r₁ later, seen = earlier ++ began :: later ∧
      Passes w r earlier began r₁ ∧ Passes began r₁ (began :: later) w' r' ∧
      (∃ rest, began.tasks = .enter x :: rest) ∧ x ∉ began.visited ∧ r₁.Alive x := by
  induction hp with
  | stay => exact absurd hx hx₀
  | @head w w₁ w' r r₁ r' seen h rest ih =>
    by_cases hdue₁ : w₁.Due x
    · exact ⟨[], w, r, seen, rfl, .stay w r, .head h rest, h.enter_of_due hdue₁ hdue⟩
    · have hx₁ : x ∉ w₁.report.destroyed := by
        intro hx₁
        obtain hx₁ | ⟨callback, hw⟩ := h.reported_inv hx₁
        · exact hx₀ hx₁
        · exact hdue ⟨callback, hw ▸ List.mem_cons_self⟩
      obtain ⟨earlier, began, r₂, later, rfl, hto, hfrom, hbegan⟩ := ih hx hx₁ hdue₁
      exact ⟨w :: earlier, began, r₂, later, rfl, .head h hto, hfrom, hbegan⟩

theorem pair_sublist_iff {before after : List Name} (hn : (before ++ x :: after).Nodup) :
    [y, x].Sublist (before ++ x :: after) ↔ y ∈ before := by
  constructor
  · intro h
    obtain ⟨first, last, hsplit, hfirst, hlast⟩ := List.sublist_append_iff.1 h
    obtain - | ⟨a, first⟩ := first
    · have hx : x ∉ after := (List.nodup_cons.1 (List.nodup_append.1 hn).2.1).1
      cases hsplit
      refine absurd ?_ hx
      obtain hlast | ⟨_, hsplit, hlast⟩ := List.sublist_cons_iff.1 hlast
      · exact hlast.subset (List.mem_cons_of_mem y List.mem_cons_self)
      · cases hsplit
        exact hlast.subset List.mem_cons_self
    · obtain ⟨rfl, -⟩ := List.cons.inj hsplit
      exact hfirst.subset List.mem_cons_self
  · intro hy
    exact (List.singleton_sublist.2 hy).append (List.singleton_sublist.2 List.mem_cons_self)

/-- The teardown of `x`, which began on top of `rest` with `before` reported, is at the dependents
of `x`. All that it comes to is led to from `x` past the names whose destroy steps wait in
`rest`. -/
structure DependentsFirst (e : Edges) (x : Name) (rest : List (Task κ)) (before : List Name)
    (w : Walk κ) : Prop where
  tasks : ∃ above callback,
    w.tasks = above ++ .dispose x callback true :: .contained x :: .forget x :: rest ∧
      ∀ t ∈ above, t.FromDependents e (Task.DestroyStepIn rest) x
  visited : ∀ b, Task.DestroyStepIn rest b → b ∈ w.visited
  destroyed : ∀ n ∈ w.report.destroyed, n ∈ before ∨ e.LeadsPast (Task.DestroyStepIn rest) x n

theorem Orderly.dependentsFirst (ho : Orderly e w r) (hw : w.tasks = .enter x :: rest)
    (hx : x ∉ w.visited) (halive : r.Alive x) (hq : Quiet w r w' r') :
    DependentsFirst e x rest w.report.destroyed w' := by
  have hentered {b : Name} (hb : Task.DestroyStepIn rest b) : b ∈ w.visited := by
    obtain ⟨callback, claimed, hmem⟩ := hb
    exact ho.entered (hw ▸ List.mem_cons_of_mem _ hmem) rfl
  cases hq with
  | start | dispose | contained | forget | sweep => cases hw
  | again hn =>
    cases hw
    exact absurd hn hx
  | enter hn =>
    cases hw
    refine ⟨⟨_, _, enter_tasks_of_alive halive, fun t ht => ?_⟩,
      fun b hb => List.mem_cons_of_mem x (hentered hb), fun n hn => .inl hn⟩
    obtain ⟨s, hs, rfl⟩ := List.mem_map.1 ht
    exact ⟨x, .refl, (ho.fewer x).1.subset hs⟩

theorem DependentsFirst.quiet (h : DependentsFirst e x rest before w) (hf : r.edges.Fewer e)
    (hc : ∀ n, e.containedIn n = []) (hq : Quiet w r w' r') :
    DependentsFirst e x rest before w' ∨
      ∃ callback, w.tasks = .dispose x callback true :: .contained x :: .forget x :: rest := by
  obtain ⟨⟨above, callback, hw, habove⟩, hvisited, hdestroyed⟩ := h
  obtain - | ⟨task, above⟩ := above
  · exact .inr ⟨callback, hw⟩
  left
  obtain ⟨htask, hmore⟩ := List.forall_mem_cons.1 habove
  cases hq with
  | start | sweep =>
    obtain ⟨rfl, -⟩ := List.cons.inj hw
    cases htask
  | again hn | forget =>
    obtain ⟨-, rfl⟩ := List.cons.inj hw
    exact ⟨⟨above, callback, rfl, hmore⟩, hvisited, hdestroyed⟩
  | @contained _ n _ visited report =>
    obtain ⟨-, rfl⟩ := List.cons.inj hw
    have hnone : r.edges.containedIn n = [] := List.sublist_nil.1 (hc n ▸ (hf n).2)
    exact ⟨⟨above, callback, by rw [hnone]; rfl, hmore⟩, hvisited, hdestroyed⟩
  | @dispose _ n _ claimed _ visited report outcome =>
    obtain ⟨rfl, rfl⟩ := List.cons.inj hw
    refine ⟨⟨above, callback, rfl, hmore⟩, hvisited, fun k hk => ?_⟩
    cases claimed with
    | false => exact hdestroyed k hk
    | true =>
      obtain hk | hk := List.mem_append.1 hk
      · exact hdestroyed k hk
      · exact .inr (List.mem_singleton.1 hk ▸ htask)
  | @enter _ n _ visited report hn =>
    obtain ⟨rfl, rfl⟩ := List.cons.inj hw
    obtain ⟨a, ha, hs⟩ := htask
    have hled : e.LeadsPast (Task.DestroyStepIn rest) x n :=
      ha.tail ⟨hs, fun hwaits => hn (hvisited n hwaits)⟩
    rw [enter_eq]
    refine ⟨⟨entryTasks r n ++ above, callback, (List.append_assoc ..).symm, fun t ht => ?_⟩,
      fun b hb => List.mem_cons_of_mem n (hvisited b hb), hdestroyed⟩
    obtain ht | ht := List.mem_append.1 ht
    · obtain ht | ht := List.mem_append.1 ht
      · obtain ⟨s, hs, rfl⟩ := List.mem_map.1 ht
        exact ⟨n, hled, (hf n).1.subset hs⟩
      · simp only [List.mem_cons, List.not_mem_nil, or_false] at ht
        obtain rfl | rfl | rfl := ht <;> exact hled
    · exact hmore t ht

theorem Passes.reports (hp : Passes w r seen w' r') (hend : w'.tasks = [])
    (hf : r.edges.Fewer e) (hc : ∀ n, e.containedIn n = [])
    (h : DependentsFirst e x rest before w) :
    ∃ earlier ended r₁ later callback, seen = earlier ++ ended :: later ∧
      Passes w r earlier ended r₁ ∧ Passes ended r₁ (ended :: later) w' r' ∧
      ended.tasks = .dispose x callback true :: .contained x :: .forget x :: rest ∧
      ∀ n ∈ ended.report.destroyed, n ∈ before ∨ e.LeadsPast (Task.DestroyStepIn rest) x n := by
  induction hp with
  | stay =>
    obtain ⟨above, callback, hw, -⟩ := h.tasks
    rw [hend] at hw
    exact absurd hw.symm (List.append_ne_nil_of_right_ne_nil _ (List.cons_ne_nil _ _))
  | @head w w₁ w' r r₁ r' seen hq hrest ih =>
    obtain h₁ | ⟨callback, hw⟩ := h.quiet hf hc hq
    · obtain ⟨earlier, ended, r₂, later, callback, rfl, hto, hfrom, hended⟩ :=
        ih hend (hq.fewer.trans hf) h₁
      exact ⟨w :: earlier, ended, r₂, later, callback, rfl, .head hq hto, hfrom, hended⟩
    · exact ⟨[], w, r, seen, callback, rfl, .stay w r, .head hq hrest, hw, h.destroyed⟩

/-- In a teardown of a registry that had the edges `e`, that of `x` begins at `began`, and `x` is
reported at `ended`. The teardown ends at `w'`. -/
structure ReportedAt (e : Edges) (x : Name) (began ended : Walk κ) (r : Registry κ) (w' : Walk κ)
    (r' : Registry κ) : Prop where
  tearsDown : TearsDown x began ended
  root : began.visited = [] → ∀ b, ¬ended.PartOf b
  orderly : Orderly e ended r
  postorder : Postorder e ended r
  goes_on : Quiets ended r w' r'
  grows : began.report.destroyed ⊆ ended.report.destroyed
  led : ∀ n ∈ ended.report.destroyed,
    n ∈ began.report.destroyed ∨ e.LeadsPast ended.PartOf x n
  appends : ∃ later, w'.report.destroyed = ended.report.destroyed ++ x :: later

theorem Passes.reportedAt (hu : w.Untouched) (hp : Passes w r seen w' r') (hend : w'.tasks = [])
    (hc : ∀ n, r.edges.containedIn n = []) (hx : x ∈ w'.report.destroyed) :
    ∃ began ended r₁, [began, ended].Sublist seen ∧ ReportedAt r.edges x began ended r₁ w' r' := by
  have hx₀ : x ∉ w.report.destroyed := hu.report ▸ List.not_mem_nil
  have hdue : ¬w.Due x := by
    rintro ⟨callback, hmem⟩
    cases hu.tasks _ hmem
  obtain ⟨earlier, began, r₁, later, rfl, hto, hfrom, ⟨rest, hw⟩, hvisited, halive⟩ :=
    hp.begins hx hx₀ hdue
  obtain ⟨ho₁, hp₁⟩ := hto.quiets.postorder hu.orderly hu.postorder
  obtain - | ⟨hq, hfrom⟩ := hfrom
  obtain ⟨mid, ended, r₂, last, callback, rfl, hto', hfrom', hw', hled⟩ :=
    hfrom.reports hend (hq.fewer.trans ho₁.fewer) hc (ho₁.dependentsFirst hw hvisited halive hq)
  have hpath : Quiets began r₁ ended r₂ := .head hq hto'.quiets
  obtain ⟨ho₂, hp₂⟩ := hpath.postorder ho₁ hp₁
  have hpart : ended.PartOf = Task.DestroyStepIn rest := by
    funext b
    simp [PartOf, Task.DestroyStepIn, hw']
  have hseen : [began, ended].Sublist (earlier ++ began :: (mid ++ ended :: last)) :=
    ((List.singleton_sublist.2 (List.mem_append_right mid List.mem_cons_self)).cons_cons
      began).trans (List.sublist_append_right earlier _)
  obtain - | ⟨hq', hfrom'⟩ := hfrom'
  refine ⟨began, ended, r₂, hseen, ⟨hvisited, rest, callback, hw, hw'⟩, ?_, ho₂, hp₂,
    .head hq' hfrom'.quiets, ?_, hpart ▸ hled, ?_⟩
  · intro hnone b hb
    rw [hpart] at hb
    obtain ⟨callback', claimed, hmem⟩ := hb
    have hentered := ho₁.entered (hw ▸ List.mem_cons_of_mem _ hmem) rfl
    rw [hnone] at hentered
    cases hentered
  · obtain ⟨more, hmore⟩ := hpath.destroyed
    rw [hmore]
    exact List.subset_append_left _ _
  · obtain ⟨more, hmore⟩ := hfrom'.quiets.destroyed
    exact ⟨more, by rw [hmore, (hq'.of_reports ⟨callback, _, hw'⟩).2, List.append_assoc]; rfl⟩

section ReportedAt

variable {began ended : Walk κ} (h : ReportedAt e x began ended r w' r')
  (hn : w'.report.destroyed.Nodup)
include h

theorem ReportedAt.reports : ended.Reports x := by
  obtain ⟨-, rest, callback, -, hw⟩ := h.tearsDown
  exact ⟨callback, _, hw⟩

theorem ReportedAt.restsOn_of_partOf (hc : ∀ n, e.containedIn n = []) (hy : ended.PartOf y) :
    e.RestsOn x y :=
  Edges.restsOn_of_undercuts hc (h.orderly.undercuts_of_partOf h.reports hy)

include hn

theorem ReportedAt.before_iff :
    [y, x].Sublist w'.report.destroyed ↔ y ∈ ended.report.destroyed := by
  obtain ⟨later, hd⟩ := h.appends
  rw [hd] at hn ⊢
  exact pair_sublist_iff hn

theorem ReportedAt.before_of_leadsPast (hy : y ∈ w'.report.destroyed) (hne : y ≠ x)
    (hpart : ¬ended.PartOf y)
    (hchain : e.LeadsPast (fun b => ended.PartOf b ∧ b ∉ ended.report.destroyed) x y) :
    [y, x].Sublist w'.report.destroyed := by
  have hx : r.Cleared x := h.postorder.cleared_of_reports h.orderly h.reports
  have hnot : ¬ended.PartOf x := fun hpart =>
    (h.orderly.undercuts_of_partOf h.reports hpart).ne rfl
  exact (h.before_iff hn).2 (h.goes_on.reported_of_cleared h.reports hy hne hpart
    (h.postorder.cleared_of_leadsPast hx hnot hchain))

theorem ReportedAt.order_iff (hy : y ∈ w'.report.destroyed) (hne : y ≠ x) :
    [y, x].Sublist w'.report.destroyed ↔
      y ∈ began.report.destroyed ∨ e.LeadsPast ended.PartOf x y := by
  constructor
  · exact fun hyx => h.led y ((h.before_iff hn).1 hyx)
  · rintro (hyb | hchain)
    · exact (h.before_iff hn).2 (h.grows hyb)
    · exact h.before_of_leadsPast hn hy hne (hchain.not_held hne) (hchain.mono fun b hb => hb.1)

theorem ReportedAt.before_root (hroot : began.visited = []) (hy : y ∈ w'.report.destroyed)
    (hyx : e.RestsOn y x) (hne : y ≠ x) : [y, x].Sublist w'.report.destroyed :=
  (h.order_iff hn hy hne).2 (.inr (hyx.leadsPast fun c _ => h.root hroot c))

end ReportedAt

theorem exists_last {p : Name → Prop} {names : List Name} (h : ∃ n ∈ names, p n) :
    ∃ before n after, names = before ++ n :: after ∧ p n ∧ ∀ k ∈ after, ¬p k := by
  induction names with
  | nil =>
    obtain ⟨n, hn, -⟩ := h
    cases hn
  | cons k names ih =>
    by_cases hlater : ∃ n ∈ names, p n
    · obtain ⟨before, n, after, hsplit, hn, hafter⟩ := ih hlater
      exact ⟨k :: before, n, after, by rw [hsplit]; rfl, hn, hafter⟩
    · obtain ⟨n, hn, hp⟩ := h
      obtain rfl | hn := List.mem_cons.1 hn
      · exact ⟨[], n, names, rfl, hp, fun k hk hpk => hlater ⟨k, hk, hpk⟩⟩
      · exact absurd ⟨n, hn, hp⟩ hlater

theorem Passes.before_last (hu : w.Untouched) (hp : Passes w r seen w' r') (hend : w'.tasks = [])
    (hc : ∀ n, r.edges.containedIn n = []) (hx : x ∈ w'.report.destroyed)
    (hy : y ∈ w'.report.destroyed) (hyx : r.edges.RestsOn y x) (hxy : ¬r.edges.RestsOn x y)
    (hall : ∀ c, r.edges.RestsOn c x → r.edges.RestsOn x c → c ∈ w'.report.destroyed) :
    ∃ last, r.edges.RestsOn last x ∧ r.edges.RestsOn x last ∧
      [y, last].Sublist w'.report.destroyed ∧
      ∀ c, r.edges.RestsOn c x → r.edges.RestsOn x c → c ≠ last →
        [c, last].Sublist w'.report.destroyed := by
  obtain ⟨before, last, after, hd, ⟨hlast, hlast'⟩, hafter⟩ :=
    exists_last (p := fun c => r.edges.RestsOn c x ∧ r.edges.RestsOn x c) ⟨x, hx, .refl, .refl⟩
  have hnodup := hp.quiets.nodup hu
  have hother {c : Name} (hcx : r.edges.RestsOn c x) (hxc : r.edges.RestsOn x c)
      (hne : c ≠ last) : [c, last].Sublist w'.report.destroyed := by
    have hmem := hall c hcx hxc
    rw [hd] at hmem hnodup ⊢
    refine (pair_sublist_iff hnodup).2 ?_
    obtain hmem | hmem := List.mem_append.1 hmem
    · exact hmem
    · exact absurd ⟨hcx, hxc⟩ (hafter c ((List.mem_cons.1 hmem).resolve_left hne))
  refine ⟨last, hlast, hlast', ?_, fun c => hother⟩
  have hmem : last ∈ w'.report.destroyed := hd ▸ List.mem_append_right _ List.mem_cons_self
  obtain ⟨began, ended, r₁, -, h⟩ := hp.reportedAt hu hend hc hmem
  have hlasty : ¬r.edges.RestsOn last y := fun hyl => hxy (hyl.trans hlast')
  refine h.before_of_leadsPast hnodup hy (fun hyl => hlasty (hyl ▸ .refl))
    (fun hpart => hlasty (h.restsOn_of_partOf hc hpart)) ?_
  refine Edges.RestsOn.leadsPast (hlast'.trans hyx) fun c hcl ⟨hpart, hnot⟩ => ?_
  have hlc : r.edges.RestsOn last c := h.restsOn_of_partOf hc hpart
  have hne : c ≠ last := by
    rintro rfl
    exact (h.orderly.undercuts_of_partOf h.reports hpart).ne rfl
  exact hnot ((h.before_iff hnodup).1 (hother (hlast.trans hcl) (hlc.trans hlast') hne))

structure Trailing (n : Name) (destroyed : List Name) (w : Walk κ) (r : Registry κ) : Prop where
  tasks : ∀ t ∈ w.tasks, t = .contained n ∨ t = .forget n
  contained : r.edges.containedIn n = []
  destroyed : w.report.destroyed = destroyed

theorem Trailing.quiet {destroyed : List Name} (h : Trailing n destroyed w r)
    (hq : Quiet w r w' r') : Trailing n destroyed w' r' := by
  obtain ⟨htasks, hcontained, hdestroyed⟩ := h
  have hnone : r'.edges.containedIn n = [] := List.sublist_nil.1 (hcontained ▸ (hq.fewer n).2)
  cases hq with
  | start | again | enter | dispose | sweep => simp at htasks
  | forget => exact ⟨(List.forall_mem_cons.1 htasks).2, hnone, hdestroyed⟩
  | contained =>
    obtain ⟨hn, htasks⟩ := List.forall_mem_cons.1 htasks
    obtain rfl : _ = n := by simpa using hn
    exact ⟨by simpa [hcontained] using htasks, hnone, hdestroyed⟩

theorem Passes.root_last (hp : Passes (.one n) r seen w' r') (hend : w'.tasks = [])
    (hc : ∀ n, r.edges.containedIn n = []) (hn : n ∈ w'.report.destroyed) :
    ∃ earlier, w'.report.destroyed = earlier ++ [n] := by
  have ho : Orderly r.edges (.one n) r := untouched_one.orderly
  have halive : r.Alive n := by
    obtain ha | ⟨callback, hmem⟩ | hn := hp.quiets.destroyed_inv hn
    · exact ha
    · cases List.mem_singleton.1 hmem
    · cases hn
  obtain - | ⟨hq, hrest⟩ := hp
  · cases hend
  obtain ⟨_, ended, r₁, _, callback, -, hto, hfrom, hw, -⟩ :=
    hrest.reports hend hq.fewer hc (ho.dependentsFirst rfl List.not_mem_nil halive hq)
  have hpath : Quiets (.one n) r ended r₁ := .head hq hto.quiets
  obtain ⟨ho₁, -⟩ := hpath.postorder ho untouched_one.postorder
  obtain - | ⟨hq', hfrom⟩ := hfrom
  obtain ⟨htail, hreported⟩ := hq'.of_reports ⟨callback, _, hw⟩
  have htrailing : Trailing n (ended.report.destroyed ++ [n]) _ _ :=
    ⟨by simp [htail, hw], List.sublist_nil.1 (hc n ▸ ((hq'.fewer.trans ho₁.fewer) n).2), hreported⟩
  exact ⟨_, (hfrom.quiets.keeps htrailing fun h hq => h.quiet hq).destroyed⟩

theorem Passes.order_at (hu : w.Untouched) (hp : Passes w r seen w' r') (hend : w'.tasks = [])
    (hc : ∀ n, r.edges.containedIn n = []) (hx : x ∈ w'.report.destroyed) :
    ∃ began ended, [began, ended].Sublist seen ∧ TearsDown x began ended ∧
      (∀ b, ended.PartOf b → r.edges.RestsOn x b) ∧
      (∀ y ∈ w'.report.destroyed, y ≠ x → ([y, x].Sublist w'.report.destroyed ↔
        y ∈ began.report.destroyed ∨ r.edges.LeadsPast ended.PartOf x y)) ∧
      (began.visited = [] → ∀ y ∈ w'.report.destroyed, r.edges.RestsOn y x → y ≠ x →
        [y, x].Sublist w'.report.destroyed) := by
  have hn := hp.quiets.nodup hu
  obtain ⟨began, ended, r₁, hseen, h⟩ := hp.reportedAt hu hend hc hx
  exact ⟨began, ended, hseen, h.tearsDown, fun b => h.restsOn_of_partOf hc,
    fun y => h.order_iff hn, fun hroot y => h.before_root hn hroot⟩

end Walk

namespace Machine

variable [Language ρ κ] {client : Client σ ρ κ} {m : Machine σ ρ κ} {op : Op κ}

/-- A teardown whose destroy callbacks keep to themselves, where nothing contains anything, reports
the name that it was given after all others. Of any two names it reports `y` before `x` if and only
if `y` had been reported when the teardown of `x` began, or a chain of dependents leads from `x` to
`y` past the names that the teardown of `x` is a part of. There are no such names if `x` is where
the teardown set out, and otherwise `x` rests on them, so those that a chain leads to are on circles
with `x`. What rests on `x`, but has not `x` rest on it, comes before the last of the names on
circles through `x` if all of them are reported. -/
theorem report_order_over_circles (hd : m.deed = .asked op)
    (hop : op = .destroyAll ∨ ∃ n, op = .destroy n)
    (hc : ∀ n, m.registry.edges.containedIn n = [])
    (hs : ∀ entry ∈ m.registry.disposers.entries, (client.disposer entry.2).Silent) :
    let e := m.registry.edges
    ∃ k report, m.AnswersAfter client k (.report report) ∧ report.destroyed.Nodup ∧
      (∀ n, op = .destroy n → n ∈ report.destroyed →
        ∀ y ∈ report.destroyed, y ≠ n → [y, n].Sublist report.destroyed) ∧
      ∀ x ∈ report.destroyed,
        (∃ began ended : Walk κ,
          [.turned began, .turned ended].Sublist (deeds client k m) ∧
            Walk.TearsDown x began ended ∧ (∀ b, ended.PartOf b → e.RestsOn x b) ∧
            (∀ y ∈ report.destroyed, y ≠ x → ([y, x].Sublist report.destroyed ↔
              y ∈ began.report.destroyed ∨ e.LeadsPast ended.PartOf x y)) ∧
            (began.visited = [] → ∀ y ∈ report.destroyed, e.RestsOn y x → y ≠ x →
              [y, x].Sublist report.destroyed)) ∧
          ∀ y ∈ report.destroyed, e.RestsOn y x → ¬e.RestsOn x y →
            (∀ c, e.RestsOn c x → e.RestsOn x c → c ∈ report.destroyed) →
            ∃ last, e.RestsOn last x ∧ e.RestsOn x last ∧ [y, last].Sublist report.destroyed ∧
              ∀ c, e.RestsOn c x → e.RestsOn x c → c ≠ last →
                [c, last].Sublist report.destroyed := by
  intro e
  obtain ⟨w, r, events, hstart, hu, hedges, hone, hcallbacks⟩ :=
    Walk.untouched_of_start hop m.registry
  have hsilent := hcallbacks (fun callback => (client.disposer callback).Silent) hs
  obtain ⟨k, seen, w', r', ha, -, hpass, hend, hseen⟩ := tearDown_passes hd hstart hsilent
  have hc' : ∀ n, r.edges.containedIn n = [] := hedges ▸ hc
  refine ⟨k, w'.report, ha, hpass.quiets.nodup hu, fun n hn hmem y hy hne => ?_,
    fun x hx => ⟨?_, ?_⟩⟩
  · obtain rfl := hone n hn
    obtain ⟨earlier, hd⟩ := hpass.root_last hend hc' hmem
    rw [hd, List.mem_append, List.mem_singleton] at hy
    rw [hd]
    exact (List.singleton_sublist.2 (hy.resolve_right hne)).append (List.Sublist.refl [n])
  · obtain ⟨began, ended, hsub, horder⟩ := hpass.order_at hu hend hc' hx
    rw [hedges] at horder
    exact ⟨began, ended, (hsub.map Deed.turned).trans hseen, horder⟩
  · intro y hy
    rw [← show r.edges = e from hedges]
    exact hpass.before_last hu hend hc' hx hy

section Looped

/-- Here `a` and `x` need each other, and `y` needs `a`. Next is the teardown of `a`. -/
def looped : Machine Unit (Request Unit) Unit :=
  run idle 6 (.ofMain ({} : Settings).registry () (do
    let _ ← .ask (.install "a" ⟨0, .unit⟩)
    let _ ← .ask (.install "x" ⟨1, .unit⟩)
    let _ ← .ask (.install "y" ⟨2, .unit⟩)
    let _ ← .ask (.addDependency "a" "x")
    let _ ← .ask (.addDependency "x" "a")
    let _ ← .ask (.addDependency "a" "y")
    let _ ← .ask (.destroy "a")))

theorem looped_containedIn (n : Name) : looped.registry.edges.containedIn n = [] :=
  Edges.members_empty

theorem looped_restsOn : looped.registry.edges.RestsOn "y" "x" :=
  .head (show "a" ∈ looped.registry.edges.dependentsOf "x" by decide) (.single (by decide))

theorem looped_eq_of_restsOn {n : Name} (h : looped.registry.edges.RestsOn n "y") : n = "y" := by
  obtain h | ⟨b, hb, -⟩ := Relation.ReflTransGen.cases_head h
  · exact h.symm
  · have hnone : looped.registry.edges.dependentsOf "y" = [] := by decide
    rw [hnone] at hb
    cases hb

theorem looped_reported {n : Name} (h : looped.registry.edges.RestsOn n "x") :
    n ∈ ["x", "y", "a"] := by
  have hclosed : ∀ a ∈ ["x", "y", "a"], ∀ b ∈ looped.registry.edges.dependentsOf a,
      b ∈ ["x", "y", "a"] := by decide
  induction h with
  | refl => decide
  | tail _ hb ih => exact hclosed _ ih _ hb

theorem looped_answers : looped.Answers idle (.report ⟨["x", "y", "a"], []⟩) :=
  ⟨14, rfl, by decide⟩

theorem report_order_over_circles_looped :
    looped.deed = .asked (.destroy "a") ∧ (∀ n, looped.registry.edges.containedIn n = []) ∧
      looped.registry.disposers.entries = [] ∧
      looped.Answers idle (.report ⟨["x", "y", "a"], []⟩) ∧
      ["y", "a"].Sublist ["x", "y", "a"] ∧
      (∃ k began ended, [.turned began, .turned ended].Sublist (deeds idle k looped) ∧
        Walk.TearsDown "x" began ended ∧
        looped.registry.edges.RestsOn "y" "x" ∧
        ¬looped.registry.edges.LeadsPast ended.PartOf "x" "y") ∧
      ∃ last, looped.registry.edges.RestsOn last "x" ∧ looped.registry.edges.RestsOn "x" last ∧
        ["y", last].Sublist ["x", "y", "a"] := by
  have hd : looped.deed = .asked (.destroy "a") := rfl
  have he : looped.registry.disposers.entries = [] := rfl
  have hs : ∀ entry ∈ looped.registry.disposers.entries, (idle.disposer entry.2).Silent := by
    rw [he]
    exact List.forall_mem_nil _
  obtain ⟨k, report, ha, -, hroot, horder⟩ :=
    report_order_over_circles hd (.inr ⟨"a", rfl⟩) looped_containedIn hs
  obtain rfl : report = ⟨["x", "y", "a"], []⟩ :=
    Answer.report.inj (Answers.unique ⟨k, ha⟩ looped_answers)
  have hnot : ¬looped.registry.edges.RestsOn "x" "y" :=
    fun h => absurd (looped_eq_of_restsOn h) (by decide)
  obtain ⟨⟨began, ended, hseen, hdown, -, hiff, -⟩, hlast⟩ := horder "x" (by decide)
  obtain ⟨last, h, h', hsub, -⟩ :=
    hlast "y" (by decide) looped_restsOn hnot fun c hc _ => looped_reported hc
  have hafter : ¬["y", "x"].Sublist ["x", "y", "a"] := by decide
  exact ⟨hd, looped_containedIn, he, ⟨k, ha⟩, hroot "a" rfl (by decide) "y" (by decide) (by decide),
    ⟨k, began, ended, hseen, hdown, looped_restsOn,
      fun hchain => hafter ((hiff "y" (by decide) (by decide)).2 (.inr hchain))⟩, last, h, h', hsub⟩

/-- A name that needs `x` only by way of the circle through `x` is torn down after it. -/
theorem reported_before_dependent :
    looped.Reachable idle ∧ (∀ n, looped.registry.edges.containedIn n = []) ∧
      looped.registry.disposers.entries = [] ∧ looped.deed = .asked (.destroy "a") ∧
      looped.registry.edges.RestsOn "y" "x" ∧ ¬looped.registry.edges.RestsOn "x" "y" ∧
      ∃ report, looped.Answers idle (.report report) ∧ report.destroyed = ["x", "y", "a"] :=
  ⟨⟨{}, (), _, 6, rfl⟩, looped_containedIn, rfl, rfl, looped_restsOn,
    fun h => absurd (looped_eq_of_restsOn h) (by decide), _, looped_answers, rfl⟩

end Looped

end Machine

end ObjectRegistry
