import Mathlib.Algebra.Order.Group.Multiset
import ObjectRegistry.Proofs.Walks

namespace ObjectRegistry

variable {σ ρ κ : Type}

def Task.callback? : Task κ → Option (Name × κ)
  | .dispose n (some callback) _ => some (n, callback)
  | _ => none

def Walk.held (w : Walk κ) : List (Name × κ) := w.tasks.filterMap Task.callback?

def Turn.held : Turn κ → List (Name × κ)
  | .over => []
  | .moved walk _ _ => walk.held
  | .ask n callback _ rest => (n, callback) :: rest.held

namespace Disposers

variable {d : Disposers κ} {n : Name}

theorem add_inv {d' : Disposers κ} {callback : κ} (h : d.add n callback = .ok d') :
    n ∉ d.names ∧ d'.entries = d.entries ++ [(n, callback)] := by
  rw [add] at h
  split at h
  · cases h
  · split at h
    · cases h
    · case isFalse hn =>
      cases h
      refine ⟨fun hmem => hn ?_, rfl⟩
      obtain ⟨entry, hentry, rfl⟩ := List.mem_map.1 hmem
      rw [has, find?, List.lookup_isSome_iff]
      exact ⟨entry, hentry, by rw [beq_self_eq_true]⟩

theorem not_mem_names_erase (d : Disposers κ) : n ∉ (d.erase n).names := by
  intro h
  obtain ⟨entry, hentry, rfl⟩ := List.mem_map.1 h
  exact of_decide_eq_true (List.mem_filter.1 hentry).2 rfl

theorem entries_erase (n : Name) (hd : d.names.Nodup) :
    d.entries.Perm (((d.find? n).map (n, ·)).toList ++ (d.erase n).entries) := by
  cases hf : d.find? n with
  | none =>
    have hkeep : (d.erase n).entries = d.entries := by
      apply List.filter_eq_self.2
      intro entry hentry
      rw [decide_eq_true_eq]
      rintro rfl
      exact absurd (List.lookup_eq_none_iff.1 hf entry hentry) (by simp)
    rw [hkeep]
    exact List.Perm.refl _
  | some callback =>
    obtain ⟨before, after, hsplit, -⟩ := List.lookup_eq_some_iff.1 hf
    have hnames : d.names = before.map (·.1) ++ n :: after.map (·.1) := by
      rw [names, hsplit, List.map_append, List.map_cons]
    rw [hnames, List.nodup_middle, List.nodup_cons, List.mem_append, not_or] at hd
    have hother {entries : List (Name × κ)} (hn : n ∉ entries.map (·.1)) :
        entries.filter (·.1 ≠ n) = entries := by
      apply List.filter_eq_self.2
      intro entry hentry
      rw [decide_eq_true_eq]
      rintro rfl
      exact hn (List.mem_map_of_mem hentry)
    have herase : (d.erase n).entries = before ++ after := by
      rw [erase, hsplit, List.filter_append, List.filter_cons_of_neg (by simp), hother hd.1.1,
        hother hd.1.2]
    rw [herase, hsplit]
    exact List.perm_middle

end Disposers

def Deed.offers : Deed κ → Bool
  | .asked (.onDestroy ..) => true
  | _ => false

namespace Registry

variable (r : Registry κ)

/-- The destroy callback that a deed has the registry take. -/
def accepted? : Deed κ → Option (Name × κ)
  | .asked (.onDestroy n callback) =>
    match r.reply? (.asked (.onDestroy n callback)) with
    | some (.settled (.ok ())) => some (n, callback)
    | _ => none
  | _ => none

variable {r} in
theorem offers_of_accepted {d : Deed κ} {entry : Name × κ} (h : r.accepted? d = some entry) :
    d.offers = true := by
  cases d with
  | asked op =>
    cases op with
    | onDestroy n callback => rfl
    | _ => cases h
  | _ => cases h

def invoked? (d : Deed κ) : Option (Name × κ) :=
  match r.launch? d with
  | some (.dispose n _ _, callback) => some (n, callback)
  | _ => none

/-- The destroy callbacks that a deed lets go of although they have not run. -/
def swept : Deed κ → List (Name × κ)
  | .turned ⟨.sweep :: _, _, _⟩ => r.disposers.entries
  | _ => []

theorem swept_eq_nil {d : Deed κ} (hd : ∀ walk, d ≠ .turned walk) : r.swept d = [] := by
  cases d with
  | turned walk => exact absurd rfl (hd walk)
  | _ => rfl

theorem swept_of_tasks {walk : Walk κ}
    (h : ∀ rest, walk.tasks ≠ .sweep :: rest) : r.swept (.turned walk) = [] := by
  obtain ⟨tasks, visited, report⟩ := walk
  cases tasks with
  | nil => rfl
  | cons task rest =>
    cases task with
    | sweep => exact absurd rfl (h rest)
    | _ => rfl

theorem disposers_asked (op : Op κ) :
    (r.start op).registry.disposers = r.disposers ∧ r.accepted? (.asked op) = none ∨
      ∃ n callback, r.disposers.add n callback = .ok (r.start op).registry.disposers ∧
        r.accepted? (.asked op) = some (n, callback) := by
  have found {k : Name} {purpose : Purpose} {o : Outset κ} (ho : Finds r k purpose o) :
      o.registry.disposers = r.disposers := by
    cases ho <;> rfl
  cases op with
  | links op | marks op | store op | edges op | hasDisposer k | disposerNames | describe part
  | destroy k | destroyAll => exact .inl ⟨rfl, rfl⟩
  | find k => exact .inl ⟨found (r.finds k .find), rfl⟩
  | findAs given k kind => exact .inl ⟨found (r.finds k (.findAs given kind)), rfl⟩
  | obtain k factory =>
    refine .inl ⟨?_, rfl⟩
    rw [start]
    have ho := r.obtains k factory
    generalize r.obtain k factory = o at ho
    cases ho <;> rfl
  | defer k early =>
    refine .inl ⟨?_, rfl⟩
    obtain ⟨a, ha⟩ | ⟨-, -, ha⟩ := r.defer_inv k early <;> rw [start, ha] <;> rfl
  | onDestroy k callback =>
    rw [accepted?, reply?, start, onDestroy]
    cases h : r.disposers.add k callback with
    | error fault => exact .inl ⟨rfl, rfl⟩
    | ok disposers => exact .inr ⟨k, callback, h, rfl⟩

theorem disposers_after {d : Deed κ} (hd : ∀ walk, d ≠ .turned walk) :
    (r.after d).disposers = r.disposers ∧ r.accepted? d = none ∨
      ∃ n callback, r.disposers.add n callback = .ok (r.after d).disposers ∧
        r.accepted? d = some (n, callback) := by
  cases d with
  | asked op => exact r.disposers_asked op
  | turned walk => exact absurd rfl (hd walk)
  | built n ownsWindow outcome => cases outcome <;> exact .inl ⟨rfl, rfl⟩
  | idle | brokeOff | showed | withheld | disposed => exact .inl ⟨rfl, rfl⟩

theorem entries_after {d : Deed κ} (hd : ∀ walk, d ≠ .turned walk) :
    (r.after d).disposers.entries = r.disposers.entries ++ (r.accepted? d).toList := by
  obtain ⟨hsame, ha⟩ | ⟨n, callback, hadd, ha⟩ := r.disposers_after hd
  · rw [hsame, ha, Option.toList_none, List.append_nil]
  · rw [(Disposers.add_inv hadd).2, ha, Option.toList_some]

theorem entries_turned (walk : Walk κ) :
    (r.after (.turned walk)).disposers.entries.Sublist r.disposers.entries := by
  rw [after]
  cases ht : walk.turn r with
  | «over» => exact List.Sublist.refl _
  | moved walk' r' events => exact (Walk.quiet_of_moved ht).entries_sublist
  | ask n callback claimed rest => exact List.Sublist.refl _

theorem names_nodup_after (hn : r.disposers.names.Nodup) (d : Deed κ) :
    (r.after d).disposers.names.Nodup := by
  by_cases hd : ∀ walk, d ≠ .turned walk
  · obtain ⟨hsame, -⟩ | ⟨n, callback, hadd, -⟩ := r.disposers_after hd
    · rwa [hsame]
    · obtain ⟨hnew, hentries⟩ := Disposers.add_inv hadd
      rw [Disposers.names, hentries, List.map_append, List.map_singleton,
        ← List.concat_eq_append]
      exact List.Nodup.concat hnew hn
  · obtain ⟨walk, rfl⟩ : ∃ walk, d = .turned walk := by
      simpa only [ne_eq, not_forall, not_not] using hd
    exact hn.sublist ((r.entries_turned walk).map _)

theorem invoked?_eq_none {d : Deed κ} (hd : ∀ walk, d ≠ .turned walk) : r.invoked? d = none := by
  cases d with
  | asked op =>
    rw [invoked?, launch?]
    have ho := r.begins op
    generalize r.start op = o at ho
    cases ho <;> rfl
  | turned walk => exact absurd rfl (hd walk)
  | _ => rfl

end Registry

namespace Walk

variable {r : Registry κ}

theorem held_enters (names : List Name) (rest : List (Task κ)) :
    (names.map Task.enter ++ rest).filterMap Task.callback? = rest.filterMap Task.callback? := by
  induction names with
  | nil => rfl
  | cons n names ih => exact ih

theorem held_all (d : Disposers κ) : (Walk.all d).held = [] := by
  rw [held, all, List.filterMap_append]
  simp only [List.filterMap_map, List.filterMap_cons, List.filterMap_nil, Task.callback?,
    List.append_nil, List.filterMap_eq_nil_iff, Function.comp_apply, implies_true]

/-- A turn moves callbacks from the registry to the teardown and from there to their run. None is
lost but what a sweep finds. -/
theorem held_turn (hn : r.disposers.names.Nodup) (walk : Walk κ) :
    (walk.held ++ r.disposers.entries).Perm
      ((walk.turn r).held ++
        (r.swept (.turned walk) ++ ((walk.turn r).registry r).disposers.entries)) := by
  obtain ⟨tasks, visited, report⟩ := walk
  cases tasks with
  | nil => exact List.Perm.refl _
  | cons task rest =>
    cases task with
    | start k | forget k => exact List.Perm.refl _
    | dispose k callback claimed => cases callback <;> exact List.Perm.refl _
    | contained k =>
      change (rest.filterMap _ ++ _).Perm
        (((r.edges.containedIn k).map Task.enter ++ rest).filterMap Task.callback? ++ _)
      rw [held_enters]
      exact List.Perm.refl _
    | sweep =>
      change (rest.filterMap _ ++ _).Perm (rest.filterMap _ ++ (r.disposers.entries ++ []))
      rw [List.append_nil]
    | enter k =>
      by_cases hk : k ∈ visited
      · simp only [turn, hk, ↓reduceIte]
        exact List.Perm.refl _
      · simp only [turn, hk, ↓reduceIte]
        have htaken : (Walk.enter ⟨rest, visited, report⟩ r k).held =
            ((r.disposers.find? k).map (k, ·)).toList ++ rest.filterMap Task.callback? := by
          rw [held, Walk.enter, held_enters]
          cases r.disposers.find? k <;> rfl
        change (rest.filterMap _ ++ _).Perm
          ((Walk.enter ⟨rest, visited, report⟩ r k).held ++ ([] ++ (r.disposers.erase k).entries))
        rw [htaken, List.nil_append, List.append_assoc]
        refine (List.Perm.append_left _ (Disposers.entries_erase k hn)).trans ?_
        rw [← List.append_assoc, ← List.append_assoc]
        exact List.perm_append_comm.append_right _

end Walk

namespace Machine

/-- The destroy callbacks that have been accepted and neither run nor let go of. -/
def holding (m : Machine σ ρ κ) : List (Name × κ) :=
  m.walks.flatMap Walk.held ++ m.registry.disposers.entries

variable [Language ρ κ] {client : Client σ ρ κ} {m m' : Machine σ ρ κ}

/-- What the first `bound` steps yield, one after another. -/
def tally {α : Type} (yield : Registry κ → Deed κ → List α) (client : Client σ ρ κ) :
    Nat → Machine σ ρ κ → List α
  | 0, _ => []
  | bound + 1, m =>
    match m.step client with
    | none => []
    | some m' => yield m.registry m.deed ++ tally yield client bound m'

def accepted (client : Client σ ρ κ) (k : Nat) (m : Machine σ ρ κ) : List (Name × κ) :=
  tally (fun r d => (r.accepted? d).toList) client k m

def invoked (client : Client σ ρ κ) (k : Nat) (m : Machine σ ρ κ) : List (Name × κ) :=
  tally (fun r d => (r.invoked? d).toList) client k m

def letGo (client : Client σ ρ κ) (k : Nat) (m : Machine σ ρ κ) : List (Name × κ) :=
  tally Registry.swept client k m

section Tally

variable {α : Type} {yield : Registry κ → Deed κ → List α}

theorem tally_succ (h : m.step client = some m') (k : Nat) :
    tally yield client (k + 1) m = yield m.registry m.deed ++ tally yield client k m' := by
  simp only [tally, h]

theorem tally_of_stop (h : m.step client = none) (k : Nat) : tally yield client k m = [] := by
  cases k with
  | zero => rfl
  | succ k => simp only [tally, h]

theorem mem_tally {k : Nat} {x : α}
    (hx : x ∈ tally yield client k m) :
    ∃ j < k, x ∈ yield (run client j m).registry (run client j m).deed := by
  induction k generalizing m with
  | zero => cases hx
  | succ k ih =>
    cases h : m.step client with
    | none =>
      rw [tally_of_stop h] at hx
      cases hx
    | some m' =>
      rw [tally_succ h] at hx
      obtain hx | hx := List.mem_append.1 hx
      · exact ⟨0, Nat.succ_pos k, hx⟩
      · obtain ⟨j, hj, hx⟩ := ih hx
        exact ⟨j + 1, Nat.succ_lt_succ hj, by rwa [run_succ_of_step h]⟩

end Tally

theorem Reachable.names_nodup (hm : m.Reachable client) : m.registry.disposers.names.Nodup := by
  refine hm.keeps (P := fun m => m.registry.disposers.names.Nodup)
    (fun settings memory main => List.nodup_nil) fun m m' hn h => ?_
  rw [registry_step h]
  exact Registry.names_nodup_after _ hn m.deed

theorem perm_frame {α : Type} {held kept gone kept' : List α} (run after others : List α)
    (h : (held ++ kept).Perm (run ++ after ++ (gone ++ kept'))) :
    (held ++ others ++ kept).Perm (run ++ (gone ++ (after ++ others ++ kept'))) := by
  rw [← Multiset.coe_eq_coe] at h ⊢
  simp only [← Multiset.coe_add] at h ⊢
  calc (held + others + kept : Multiset α) = held + kept + others := by ac_rfl
    _ = run + after + (gone + kept') + others := by rw [h]
    _ = run + (gone + (after + others + kept')) := by ac_rfl

theorem perm_chain {α : Type} {taken run gone taken' run' gone' held held' held'' : List α}
    (h : (taken ++ held).Perm (run ++ (gone ++ held')))
    (h' : (taken' ++ held').Perm (run' ++ (gone' ++ held''))) :
    (taken ++ taken' ++ held).Perm (run ++ run' ++ (gone ++ gone' ++ held'')) := by
  rw [← Multiset.coe_eq_coe] at h h' ⊢
  simp only [← Multiset.coe_add] at h h' ⊢
  calc (taken + taken' + held : Multiset α) = taken + held + taken' := by ac_rfl
    _ = run + gone + (taken' + held') := by rw [h]; ac_rfl
    _ = run + run' + (gone + gone' + held'') := by rw [h']; ac_rfl

/-- What is held before a step or accepted by it is run, let go of, or held after it. -/
theorem holding_step (hn : m.registry.disposers.names.Nodup) (h : m.step client = some m') :
    ((m.registry.accepted? m.deed).toList ++ m.holding).Perm
      ((m.registry.invoked? m.deed).toList ++ (m.registry.swept m.deed ++ m'.holding)) := by
  have hs := strides h
  -- Only the innermost teardown moves callbacks, so `perm_frame` carries the others along.
  rw [holding, holding, registry_step h]
  generalize m.registry = r at hs hn
  generalize m.deed = d at hs
  generalize m.walks = walks at hs
  generalize m'.walks = walks' at hs
  cases hs with
  | stay hd =>
    rw [r.entries_after hd, r.invoked?_eq_none hd, r.swept_eq_nil hd, Option.toList_none,
      List.nil_append, List.nil_append, ← List.append_assoc _ r.disposers.entries]
    exact List.perm_append_comm
  | one => exact List.Perm.refl _
  | all =>
    change (walks.flatMap Walk.held ++ _).Perm
      ((Walk.all r.disposers).held ++ walks.flatMap Walk.held ++ _)
    rw [Walk.held_all]
    exact List.Perm.refl _
  | settled outcome => exact List.Perm.refl _
  | @«over» walk _ ht =>
    have hturn := Walk.held_turn hn walk
    rw [ht] at hturn
    have hi : r.invoked? (.turned walk) = none := by rw [Registry.invoked?, Registry.launch?, ht]
    rw [hi, Registry.after, ht]
    exact perm_frame [] [] _ hturn
  | @moved walk walk' r' events _ ht =>
    have hturn := Walk.held_turn hn walk
    rw [ht] at hturn
    have hi : r.invoked? (.turned walk) = none := by rw [Registry.invoked?, Registry.launch?, ht]
    rw [hi, Registry.after, ht]
    exact perm_frame [] walk'.held _ hturn
  | @asked walk rest n callback claimed _ ht =>
    have hturn := Walk.held_turn hn walk
    rw [ht] at hturn
    have hi : r.invoked? (.turned walk) = some (n, callback) := by
      rw [Registry.invoked?, Registry.launch?, ht]
    rw [hi, Registry.after, ht]
    exact perm_frame [(n, callback)] rest.held _ hturn

theorem holding_run (client : Client σ ρ κ) (hn : m.registry.disposers.names.Nodup) (k : Nat) :
    (accepted client k m ++ m.holding).Perm
      (invoked client k m ++ (letGo client k m ++ (run client k m).holding)) := by
  induction k generalizing m with
  | zero => exact List.Perm.refl _
  | succ k ih =>
    cases h : m.step client with
    | none =>
      rw [accepted, invoked, letGo, tally_of_stop h, tally_of_stop h, tally_of_stop h,
        run_of_stop h]
      exact List.Perm.refl _
    | some m' =>
      have hn' : m'.registry.disposers.names.Nodup := by
        rw [registry_step h]
        exact Registry.names_nodup_after _ hn m.deed
      have hsplit (yield : Registry κ → Deed κ → List (Name × κ)) :
          tally yield client (k + 1) m = yield m.registry m.deed ++ tally yield client k m' :=
        tally_succ h k
      rw [accepted, invoked, letGo, hsplit, hsplit, hsplit, run_succ_of_step h]
      exact perm_chain (holding_step hn h) (ih hn')

end Machine

end ObjectRegistry
