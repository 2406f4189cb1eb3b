import ObjectRegistry.Proofs.Erasure
import ObjectRegistry.Proofs.Walks

namespace ObjectRegistry

variable {σ ρ κ : Type}

theorem Adjacency.Proper.isEmpty_iff {a : Adjacency} (h : a.Proper) :
    a.isEmpty = true ↔ ∀ n, a.members n = [] := by
  rw [Std.ExtTreeMap.isEmpty_iff]
  constructor
  · rintro rfl n
    exact Edges.members_empty
  · exact fun hn => h.ext proper_empty fun n => (hn n).trans Edges.members_empty.symm

namespace Edges

open Adjacency

variable {e : Edges} {owed owed' : Name → Prop} {n x y : Name}

/-- Each dependent of a name has the name among what it needs. Conversely it is among the dependents
of all that it needs, unless it is owed. -/
structure Accounted (owed : Name → Prop) (e : Edges) : Prop where
  forth : ∀ {x y}, y ∈ e.dependentsOf x → x ∈ e.dependenciesOf y
  back : ∀ {x y}, x ∈ e.dependenciesOf y → y ∈ e.dependentsOf x ∨ owed y
  contained : Proper e.contained
  dependents : Proper e.dependents
  dependencies : Proper e.dependencies

theorem accounted_empty : Accounted owed {} where
  forth h := by
    rw [dependentsOf, members_empty] at h
    cases h
  back h := by
    rw [dependenciesOf, members_empty] at h
    cases h
  contained := proper_empty
  dependents := proper_empty
  dependencies := proper_empty

theorem Accounted.mono (h : Accounted owed e)
    (ho : ∀ y, e.dependenciesOf y ≠ [] → owed y → owed' y) : Accounted owed' e where
  forth := h.forth
  back hx := (h.back hx).imp_right (ho _ (List.ne_nil_of_mem hx))
  contained := h.contained
  dependents := h.dependents
  dependencies := h.dependencies

theorem Accounted.depend (h : Accounted owed e) (n d : Name) : Accounted owed (e.depend n d) := by
  rw [Edges.depend]
  split
  · exact h
  · refine ⟨fun hy => ?_, fun {x y} hx => ?_, h.contained, h.dependents.add n d,
      h.dependencies.add d n⟩
    · exact mem_add.2 ((mem_add.1 hy).imp h.forth And.symm)
    · obtain hx | ⟨rfl, rfl⟩ := mem_add.1 hx
      · exact (h.back hx).imp_left fun hy => mem_add.2 (.inl hy)
      · exact .inl (mem_add.2 (.inr ⟨rfl, rfl⟩))

theorem Accounted.addContainment (h : Accounted owed e) (links : Links) (owner part : Name) :
    Accounted owed (e.addContainment links owner part) := by
  rw [Edges.addContainment]
  split
  · exact h
  · have hc : Accounted owed { e with contained := add e.contained owner part } :=
      ⟨h.forth, h.back, h.contained.add owner part, h.dependents, h.dependencies⟩
    exact hc.depend _ owner

theorem Accounted.takeDependents (h : Accounted owed e) (n : Name) :
    Accounted (fun y => owed y ∨ y ∈ e.dependentsOf n) (e.takeDependents n) where
  forth {x y} hy := by
    rw [dependentsOf_takeDependents] at hy
    split at hy
    · cases hy
    · exact h.forth hy
  back {x y} hx := by
    rw [dependentsOf_takeDependents]
    obtain hy | ho := h.back hx
    · split
      · case isTrue hn => exact .inr (.inr (hn ▸ hy))
      · exact .inl hy
    · exact .inr (.inl ho)
  contained := h.contained
  dependents := h.dependents.erase n
  dependencies := h.dependencies

theorem Accounted.takeContained (h : Accounted owed e) (n : Name) :
    Accounted owed (e.takeContained n) where
  forth := h.forth
  back := h.back
  contained := h.contained.erase n
  dependents := h.dependents
  dependencies := h.dependencies

section Forget

theorem mem_removeFrom_erase {a : Adjacency} (h : Proper a) (keys : List Name) :
    y ∈ members (removeFrom (a.erase n) keys n) x ↔
      x ≠ n ∧ y ∈ members a x ∧ (y = n → x ∉ keys) := by
  rw [(h.erase n).members_removeFrom, members_erase]
  by_cases hx : x = n
  · subst hx
    simp only [↓reduceIte, List.filter_nil, ite_self, List.not_mem_nil, ne_eq, not_true_eq_false,
      false_and]
  · rw [if_neg (Ne.symm hx)]
    split
    · case isTrue hk =>
      simp only [List.mem_filter, decide_eq_true_eq, ne_eq, hx, hk, not_false_eq_true,
        not_true_eq_false, true_and, imp_false]
    · case isFalse hk =>
      simp only [ne_eq, hx, hk, not_false_eq_true, true_and, implies_true, and_true]

theorem Accounted.forget (h : Accounted owed e) (n : Name) :
    Accounted (fun y => owed y ∧ y ≠ n) (e.forget n) where
  forth {x y} hy := by
    obtain ⟨hxn, hmem, hn⟩ := (mem_removeFrom_erase h.dependents _).1 hy
    refine (mem_removeFrom_erase h.dependencies _).2 ⟨?_, h.forth hmem, fun hx => absurd hx hxn⟩
    rintro rfl
    exact hn rfl (h.forth hmem)
  back {x y} hx := by
    obtain ⟨hyn, hmem, hn⟩ := (mem_removeFrom_erase h.dependencies _).1 hx
    obtain hy | ho := h.back hmem
    · left
      refine (mem_removeFrom_erase h.dependents _).2 ⟨?_, hy, fun hy => absurd hy hyn⟩
      rintro rfl
      exact hn rfl hy
    · exact .inr ⟨ho, hyn⟩
  contained := (h.contained.erase n).removeFrom _ n
  dependents := (h.dependents.erase n).removeFrom _ n
  dependencies := (h.dependencies.erase n).removeFrom _ n

theorem dependenciesOf_forget_self : (e.forget n).dependenciesOf n = [] := by
  have h := members_removeFrom_sublist (e.dependencies.erase n) n n (e.dependentsOf n)
  rw [members_erase, if_pos rfl, List.sublist_nil] at h
  exact h

theorem dependenciesOf_forget_eq_nil (h : e.dependenciesOf y = []) :
    (e.forget n).dependenciesOf y = [] := by
  have hs := (members_removeFrom_sublist (e.dependencies.erase n) y n (e.dependentsOf n)).trans
    (members_erase_sublist n y e.dependencies)
  rw [show members e.dependencies y = [] from h, List.sublist_nil] at hs
  exact hs

end Forget

theorem Accounted.update (h : Accounted owed e) (links : Links) (op : Op) :
    Accounted owed (op.update links e) := by
  cases op with
  | dependentsOf | dependenciesOf | containedIn | hasDependents | isTransitivelyDependent | isEmpty
  | describe => exact h
  | clear => exact accounted_empty
  | addDependency n dependent => exact h.depend _ dependent
  | addContainment owner part => exact h.addContainment links owner part
  | forget n => exact (h.forget n).mono fun y _ ho => ho.1

theorem Accounted.isEmpty_iff (h : Accounted owed e) :
    e.isEmpty = true ↔
      ∀ n, e.containedIn n = [] ∧ e.dependentsOf n = [] ∧ e.dependenciesOf n = [] := by
  simp only [isEmpty, Bool.and_eq_true, h.contained.isEmpty_iff, h.dependents.isEmpty_iff,
    h.dependencies.isEmpty_iff, forall_and, and_assoc]
  rfl

end Edges

namespace Walk

/-- What has been taken from one end of the edges `e` is taken from the other when its dependent is
forgotten, and that is still to be done. -/
structure OwesForget (w : Walk κ) (e : Edges) : Prop where
  edges : e.Accounted fun y => .enter y ∈ w.tasks ∨ .forget y ∈ w.tasks
  visited : ∀ y ∈ w.visited, .forget y ∈ w.tasks ∨ e.dependenciesOf y = []

variable {w w' : Walk κ} {r r' : Registry κ} {e : Edges} {n : Name}

theorem owesForget_one (h : e.Accounted fun _ => False) (n : Name) :
    (Walk.one n : Walk κ).OwesForget e :=
  ⟨h.mono fun _ _ => False.elim, fun _ hy => absurd hy List.not_mem_nil⟩

theorem owesForget_all (h : e.Accounted fun _ => False) (d : Disposers κ) :
    (Walk.all d).OwesForget e :=
  ⟨h.mono fun _ _ => False.elim, fun _ hy => absurd hy List.not_mem_nil⟩

theorem OwesForget.enter {rest : List (Task κ)} {visited : List Name} {report : Report}
    (h : OwesForget ⟨.enter n :: rest, visited, report⟩ r.edges) :
    (Walk.enter ⟨rest, visited, report⟩ r n).OwesForget (r.claim n).edges := by
  rw [enter_eq]
  have hforget : .forget n ∈ entryTasks r n := by
    simp only [entryTasks, List.mem_append, List.mem_cons, true_or, or_true]
  constructor
  · refine (h.edges.takeDependents n).mono fun y _ hy => ?_
    obtain (hy | hy) | hy := hy
    · obtain hy | hy := List.mem_cons.1 hy
      · cases hy
        exact .inr (List.mem_append_left _ hforget)
      · exact .inl (List.mem_append_right _ hy)
    · exact .inr (List.mem_append_right _ (List.mem_of_ne_of_mem (fun h => by cases h) hy))
    · refine .inl (List.mem_append_left _ (List.mem_append_left _ ?_))
      exact List.mem_map_of_mem hy
  · intro y hy
    obtain rfl | hy := List.mem_cons.1 hy
    · exact .inl (List.mem_append_left _ hforget)
    · refine (h.visited y hy).imp_left fun hy => ?_
      exact List.mem_append_right _ (List.mem_of_ne_of_mem (fun h => by cases h) hy)

theorem OwesForget.forget {rest : List (Task κ)} {visited : List Name} {report : Report}
    (h : OwesForget ⟨.forget n :: rest, visited, report⟩ r.edges) :
    OwesForget ⟨rest, visited, report⟩ (r.forget n).edges := by
  have hrest {y : Name} (hy : .forget y ∈ Task.forget n :: rest) (hn : y ≠ n) :
      .forget y ∈ rest :=
    (List.mem_cons.1 hy).resolve_left fun he => hn (Task.forget.inj he)
  constructor
  · refine (h.edges.forget n).mono fun y _ hy => ?_
    obtain ⟨hy | hy, hn⟩ := hy
    · exact .inl (List.mem_of_ne_of_mem (fun h => by cases h) hy)
    · exact .inr (hrest hy hn)
  · intro y hy
    by_cases hn : y = n
    · subst hn
      exact .inr Edges.dependenciesOf_forget_self
    · obtain hy | hy := h.visited y hy
      · exact .inl (hrest hy hn)
      · exact .inr (Edges.dependenciesOf_forget_eq_nil hy)

theorem OwesForget.of_tasks {task : Task κ} {rest : List (Task κ)} {visited : List Name}
    {report report' : Report} (h : OwesForget ⟨task :: rest, visited, report⟩ e)
    (he : ∀ y, task ≠ .enter y) (hf : ∀ y, task ≠ .forget y) (names : List Name) :
    OwesForget ⟨names.map .enter ++ rest, visited, report'⟩ e := by
  have hrest {t : Task κ} (ht : t ∈ task :: rest) (hne : task ≠ t) :
      t ∈ names.map .enter ++ rest :=
    List.mem_append_right _ ((List.mem_cons.1 ht).resolve_left (Ne.symm hne))
  refine ⟨h.edges.mono fun y _ hy => ?_, fun y hy => ?_⟩
  · exact hy.imp (hrest · (he y)) (hrest · (hf y))
  · exact (h.visited y hy).imp_left (hrest · (hf y))

theorem OwesForget.quiet (h : w.OwesForget r.edges) (hq : Quiet w r w' r') :
    w'.OwesForget r'.edges := by
  cases hq with
  | @start _ n rest visited report =>
    have ht : OwesForget ⟨.enter n :: rest, visited, report⟩ r.edges := h.of_tasks nofun nofun [n]
    exact ⟨ht.edges, fun _ hy => absurd hy List.not_mem_nil⟩
  | dispose outcome => exact h.of_tasks nofun nofun []
  | enter hn => exact h.enter
  | forget => exact h.forget
  | sweep => exact ⟨Edges.accounted_empty, fun _ _ => .inr Edges.members_empty⟩
  | @contained _ n rest visited report =>
    have ht : OwesForget ⟨(r.edges.containedIn n).map .enter ++ rest, visited, report⟩ r.edges :=
      h.of_tasks nofun nofun _
    exact ⟨ht.edges.takeContained n, ht.visited⟩
  | @again _ n rest visited report hn =>
    have hrest {y : Name} (hy : .forget y ∈ Task.enter n :: rest) : .forget y ∈ rest :=
      (List.mem_cons.1 hy).resolve_left nofun
    refine ⟨h.edges.mono fun y hy howed => ?_, fun y hy => (h.visited y hy).imp_left hrest⟩
    obtain howed | howed := howed
    · obtain howed | howed := List.mem_cons.1 howed
      · cases howed
        exact .inr (hrest ((h.visited n hn).resolve_right hy))
      · exact .inl howed
    · exact .inr (hrest howed)

theorem OwesForget.ended (h : w.OwesForget e) (hend : w.tasks = []) : e.Accounted fun _ => False :=
  h.edges.mono fun y _ hy => by
    rw [hend] at hy
    exact hy.elim List.not_mem_nil List.not_mem_nil

end Walk

def Op.editsEdges : Op κ → Bool
  | .edges op =>
    match op with
    | .addDependency .. | .addContainment .. | .forget _ | .clear => true
    | _ => false
  | .destroy _ | .destroyAll => true
  | _ => false

def Deed.editsEdges : Deed κ → Bool
  | .asked op => op.editsEdges
  | _ => false

namespace Registry

variable (r : Registry κ)

theorem edges_after {d : Deed κ} (hd : ∀ walk, d ≠ .turned walk) :
    (r.after d).edges = r.edges ∨
      ∃ op : Edges.Op, d = .asked (.edges op) ∧ (r.after d).edges = op.update r.links r.edges := by
  cases d with
  | turned walk => exact absurd rfl (hd walk)
  | built n ownsWindow outcome => cases outcome <;> exact .inl rfl
  | asked op =>
    have he := (r.links_edges_start op).2
    cases op with
    | edges op => exact .inr ⟨op, rfl, he⟩
    | _ => exact .inl he
  | _ => exact .inl rfl

/-- The edges while the given teardowns are in progress. -/
inductive Upkeep : List (Walk κ) → Edges → Prop where
  | idle {e : Edges} (h : e.Accounted fun _ => False) : Upkeep [] e
  | busy {w : Walk κ} {e : Edges} (h : w.OwesForget e) : Upkeep [w] e

namespace Upkeep

variable {r} {walks walks' : List (Walk κ)} {d : Deed κ} {e : Edges} {w : Walk κ}

theorem accounted (h : Upkeep walks e) : ∃ owed, e.Accounted owed := by
  cases h with
  | idle h => exact ⟨_, h⟩
  | busy h => exact ⟨_, h.edges⟩

theorem whole (h : Upkeep ([] : List (Walk κ)) e) : e.Accounted fun _ => False := by
  cases h with
  | idle h => exact h

theorem owesForget {rest : List (Walk κ)} (h : Upkeep (w :: rest) e) :
    rest = [] ∧ w.OwesForget e := by
  cases h with
  | busy h => exact ⟨rfl, h⟩

theorem asked (h : Upkeep walks r.edges) (hd : ∀ walk, d ≠ .turned walk)
    (hq : d.editsEdges = true → walks = []) : Upkeep walks (r.after d).edges := by
  obtain he | ⟨op, rfl, he⟩ := r.edges_after hd
  · exact he ▸ h
  rw [he]
  cases hop : (Op.edges op : Op κ).editsEdges with
  | true =>
    obtain rfl := hq hop
    exact .idle (h.whole.update _ op)
  | false =>
    cases op with
    | addDependency | addContainment | forget | clear => cases hop
    | _ => exact h

theorem stride (h : Upkeep walks r.edges) (hs : Strides r d walks walks')
    (hq : d.editsEdges = true → walks = []) : Upkeep walks' (r.after d).edges := by
  cases hs with
  | stay hd => exact h.asked hd hq
  | @one n =>
    obtain rfl := hq rfl
    exact .busy (Walk.owesForget_one h.whole n)
  | all =>
    obtain rfl := hq rfl
    exact .busy (Walk.owesForget_all h.whole r.disposers)
  | settled outcome =>
    obtain ⟨rfl, hw⟩ := h.owesForget
    exact .busy ⟨hw.edges, hw.visited⟩
  | «over» ht =>
    obtain ⟨rfl, hw⟩ := h.owesForget
    rw [after, ht]
    exact .idle (hw.ended (Walk.tasks_of_over ht))
  | moved ht =>
    obtain ⟨rfl, hw⟩ := h.owesForget
    have he := hw.quiet (Walk.quiet_of_moved ht)
    rw [after, ht]
    exact .busy he
  | asked ht =>
    obtain ⟨rfl, hw⟩ := h.owesForget
    have he := hw.quiet (Walk.quiet_of_ask ht (.ok ()))
    rw [after, ht]
    exact .busy ⟨he.edges, he.visited⟩

end Upkeep

end Registry

namespace Machine

variable [Language ρ κ] {client : Client σ ρ κ}

/-- As long as no destroy callback has the edges changed, a dependent of a name has the name among
what it needs at every point of a run, also amid a teardown. When no teardown is in progress the
converse holds too. No set is ever empty, so that the edges count as empty when there are none. -/
theorem ends_agree {r : Registry κ} (hr : r.edges = {}) {memory : σ} {main : Program σ ρ Unit}
    {k : Nat}
    (hq : ∀ j < k, (run client j (.ofMain r memory main)).deed.editsEdges = true →
      (run client j (.ofMain r memory main)).walks = []) :
    let m := run client k (.ofMain r memory main)
    let e := m.registry.edges
    (∀ x y, y ∈ e.dependentsOf x → x ∈ e.dependenciesOf y) ∧
      (m.walks = [] → ∀ x y, x ∈ e.dependenciesOf y → y ∈ e.dependentsOf x) ∧
      (∀ n : Name, e.contained[n]? ≠ some [] ∧ e.dependents[n]? ≠ some [] ∧
        e.dependencies[n]? ≠ some []) ∧
      (e.isEmpty = true ↔
        ∀ n, e.containedIn n = [] ∧ e.dependentsOf n = [] ∧ e.dependenciesOf n = []) := by
  intro m e
  have hm : Registry.Upkeep m.walks e := by
    refine run_keeps (P := fun m => Registry.Upkeep m.walks m.registry.edges) ?_ ?_
    · change Registry.Upkeep [] r.edges
      rw [hr]
      exact .idle Edges.accounted_empty
    · intro j hj m' hu h
      rw [registry_step h]
      exact hu.stride (strides h) (hq j hj)
  obtain ⟨owed, he⟩ := hm.accounted
  refine ⟨fun x y => he.forth, fun hidle x y hx => ?_, fun n => ?_,
    he.isEmpty_iff⟩
  · rw [hidle] at hm
    exact (hm.whole.back hx).resolve_right id
  · exact ⟨(he.contained n).1, (he.dependents n).1, (he.dependencies n).1⟩

def curious : Client Unit (Op Unit) Unit where
  factory _ := return .ok ⟨0, .unit⟩
  early _ := return ⟨0, .unit⟩
  disposer _ := do
    let _ ← .ask (.find "a")
    return .ok ()
  hear _ memory := memory

def entwined : Machine Unit (Op Unit) Unit :=
  .ofMain {} () (do
    let _ ← .ask (.edges (.addDependency "a" "b"))
    let _ ← .ask (.edges (.addDependency "b" "a"))
    let _ ← .ask (.edges (.addDependency "a" "a"))
    let _ ← .ask (.edges (.addContainment "b" "c"))
    let _ ← .ask (.onDestroy "b" ())
    let _ ← .ask (.destroy "a"))

theorem ends_agree_entwined :
    let amid := run curious 10 entwined
    let past := run curious 24 entwined
    (∀ j < 24, (run curious j entwined).deed.editsEdges = true →
        (run curious j entwined).walks = []) ∧
      (amid.deed = .asked (.find "a") ∧ "a" ∈ amid.registry.edges.dependenciesOf "b" ∧
        "b" ∉ amid.registry.edges.dependentsOf "a" ∧
        "c" ∈ amid.registry.edges.dependenciesOf "b" ∧ "b" ∈ amid.registry.edges.dependentsOf "c" ∧
        ∀ x y, y ∈ amid.registry.edges.dependentsOf x → x ∈ amid.registry.edges.dependenciesOf y) ∧
      past.walks = [] ∧
      ∀ x y, x ∈ past.registry.edges.dependenciesOf y → y ∈ past.registry.edges.dependentsOf x := by
  intro amid past
  have hq : ∀ j < 24, (run curious j entwined).deed.editsEdges = true →
      (run curious j entwined).walks = [] := by
    have hall : ∀ j < 24, (run curious j entwined).deed.editsEdges = true →
        (run curious j entwined).walks.isEmpty = true := by decide
    exact fun j hj he => List.isEmpty_iff.1 (hall j hj he)
  have hamid := ends_agree (k := 10) rfl fun j hj => hq j (Nat.lt_trans hj (by decide))
  have hpast := ends_agree (k := 24) rfl hq
  have hover : past.walks = [] := List.isEmpty_iff.1 (by decide)
  exact ⟨hq, ⟨rfl, by decide, by decide, by decide, by decide, hamid.1⟩, hover, hpast.2.1 hover⟩

end Machine

end ObjectRegistry
