import ObjectRegistry.Proofs.Disposal
import ObjectRegistry.Proofs.Orderly

namespace ObjectRegistry

variable {σ ρ κ : Type}

namespace Walk

variable {w w' : Walk κ} {r r' : Registry κ} {n : Name}

/-- A complete teardown has yet to come to each of the names given. -/
def WillStart (w : Walk κ) (names : List Name) : Prop :=
  ∃ inner, w.tasks = inner ++ [.sweep] ∧ .sweep ∉ inner ∧
    ∀ n ∈ names, .start n ∈ inner ∨ w.visited = [] ∧ ∃ rest, w.tasks = .enter n :: rest

/-- The teardown is of one name, or it has yet to come to each of the names given. -/
def StartsBeforeSweep (w : Walk κ) (names : List Name) : Prop :=
  .sweep ∉ w.tasks ∨ w.WillStart names

theorem WillStart.mono {names names' : List Name} (h : w.WillStart names) (hs : names' ⊆ names) :
    w.WillStart names' := by
  obtain ⟨inner, htasks, hinner, hall⟩ := h
  exact ⟨inner, htasks, hinner, fun n hn => hall n (hs hn)⟩

theorem StartsBeforeSweep.mono {names names' : List Name} (h : w.StartsBeforeSweep names)
    (hs : names' ⊆ names) : w.StartsBeforeSweep names' :=
  h.imp_right fun h => h.mono hs

theorem startsBeforeSweep_one (n : Name) (names : List Name) :
    (Walk.one n : Walk κ).StartsBeforeSweep names :=
  .inl fun h => by cases List.mem_singleton.1 h

theorem startsBeforeSweep_all (d : Disposers κ) : (Walk.all d).StartsBeforeSweep d.names := by
  refine .inr ⟨d.names.reverse.map .start, rfl, fun h => ?_, fun n hn => .inl ?_⟩
  · obtain ⟨k, -, hk⟩ := List.mem_map.1 h
    cases hk
  · exact List.mem_map_of_mem (List.mem_reverse.2 hn)

theorem StartsBeforeSweep.sweep {names : List Name} {rest : List (Task κ)}
    (h : w.StartsBeforeSweep names) (hw : w.tasks = .sweep :: rest) : names = [] ∧ rest = [] := by
  obtain h | ⟨inner, htasks, hinner, hall⟩ := h
  · exact absurd (hw ▸ List.mem_cons_self) h
  · rw [hw] at htasks
    cases inner with
    | cons t inner =>
      cases htasks
      exact absurd List.mem_cons_self hinner
    | nil =>
      cases htasks
      refine ⟨List.eq_nil_iff_forall_not_mem.2 fun n hn => ?_, rfl⟩
      obtain hstart | ⟨-, rest, henter⟩ := hall n hn
      · cases hstart
      · rw [hw] at henter
        cases henter

theorem isRoot_enters {names : List Name} {t : Task κ} (h : t ∈ names.map Task.enter) :
    t.isRoot = false := by
  obtain ⟨k, -, rfl⟩ := List.mem_map.1 h
  rfl

/-- The head of the tasks gives way to others. That is no harm to the roots that stand below it, so
it matters only to the name of which it was the root. -/
theorem WillStart.below {names names' : List Name} {task : Task κ} {rest above : List (Task κ)}
    (h : w.WillStart names) (hw : w.tasks = task :: rest) (ht : task ≠ .sweep)
    (hw' : w'.tasks = above ++ rest) (habove : ∀ t ∈ above, t.isRoot = false)
    (hnames : names' ⊆ names)
    (hroot : ∀ n ∈ names', task = .start n ∨ w.visited = [] ∧ task = .enter n →
      w'.visited = [] ∧ ∃ rest, w'.tasks = .enter n :: rest) : w'.WillStart names' := by
  obtain ⟨inner, htasks, hinner, hall⟩ := h
  rw [hw] at htasks hall
  cases inner with
  | nil =>
    cases htasks
    exact absurd rfl ht
  | cons t inner =>
    cases htasks
    rw [List.mem_cons, not_or] at hinner
    refine ⟨above ++ inner, by rw [hw', List.append_assoc]; rfl, fun hs => ?_, fun n hn => ?_⟩
    · obtain hs | hs := List.mem_append.1 hs
      · cases habove _ hs
      · exact hinner.2 hs
    · obtain hstart | ⟨hv, _, henter⟩ := hall n (hnames hn)
      · obtain hstart | hstart := List.mem_cons.1 hstart
        · exact .inr (hroot n hn (.inl hstart.symm))
        · exact .inl (List.mem_append_right above hstart)
      · exact .inr (hroot n hn (.inr ⟨hv, (List.cons.inj henter).1⟩))

theorem WillStart.quiet {names names' : List Name} (h : w.WillStart names) (hq : Quiet w r w' r')
    (hnames : names' ⊆ names) (hkept : names' ⊆ r'.disposers.names) (hs : .sweep ∈ w'.tasks) :
    w'.WillStart names' := by
  cases hq with
  | sweep =>
    obtain ⟨-, rfl⟩ := StartsBeforeSweep.sweep (.inr h) rfl
    cases hs
  | @start _ n rest visited report =>
    refine h.below rfl nofun rfl (List.forall_mem_singleton.2 rfl) hnames fun k _ hk => ?_
    obtain hk | ⟨-, hk⟩ := hk
    · cases hk
      exact ⟨rfl, _, rfl⟩
    · cases hk
  | @again _ n rest visited report hn =>
    refine h.below rfl nofun rfl (List.forall_mem_nil _) hnames fun k _ hk => ?_
    -- A root is entered with nothing visited, so it is never passed over.
    obtain hk | ⟨hv, -⟩ := hk
    · cases hk
    · cases hv
      cases hn
  | @enter _ n rest visited report hn =>
    rw [enter_eq]
    refine h.below rfl nofun rfl (fun t ht => ?_) hnames fun k hk hroot => ?_
    · obtain ht | ht := List.mem_append.1 ht
      · exact isRoot_enters ht
      · simp only [List.mem_cons, List.not_mem_nil, or_false] at ht
        obtain rfl | rfl | rfl := ht <;> rfl
    · obtain hroot | ⟨-, hroot⟩ := hroot
      · cases hroot
      · cases hroot
        exact absurd (hkept hk) r.disposers.not_mem_names_erase
  | dispose outcome | forget =>
    exact h.below rfl nofun rfl (List.forall_mem_nil _) hnames nofun
  | contained => exact h.below rfl nofun rfl (fun t => isRoot_enters) hnames nofun

theorem Quiet.sweep_of_sweep (hq : Quiet w r w' r') (hs : .sweep ∈ w'.tasks) :
    .sweep ∈ w.tasks := by
  obtain hs | ⟨k, hk⟩ | ⟨k, _, -, -, -, hk | hk | hk⟩ := hq.mem_tasks_inv hs
  · exact hs
  all_goals cases hk

theorem StartsBeforeSweep.quiet {names names' : List Name} (h : w.StartsBeforeSweep names)
    (hq : Quiet w r w' r') (hnames : names' ⊆ names) (hkept : names' ⊆ r'.disposers.names) :
    w'.StartsBeforeSweep names' := by
  by_cases hs : .sweep ∈ w'.tasks
  · have hawaits := h.resolve_left (not_not.2 (hq.sweep_of_sweep hs))
    exact .inr (hawaits.quiet hq hnames hkept hs)
  · exact .inl hs

theorem Quiet.names_subset (hq : Quiet w r w' r') : r'.disposers.names ⊆ r.disposers.names :=
  (hq.entries_sublist.map _).subset

/-- The teardown will end with its sweep, or it is over and all is swept. -/
def Closing (w : Walk κ) (r : Registry κ) : Prop :=
  (∃ inner, w.tasks = inner ++ [.sweep]) ∨ w.tasks = [] ∧ r.sweep = r

theorem closing_all (d : Disposers κ) : (Walk.all d).Closing r := .inl ⟨_, rfl⟩

theorem Closing.swept (h : w.Closing r) (hw : w.tasks = []) : r.sweep = r := by
  obtain ⟨inner, hsweep⟩ | ⟨-, hend⟩ := h
  · rw [hw] at hsweep
    exact absurd hsweep.symm (List.append_ne_nil_of_right_ne_nil _ (List.cons_ne_nil _ _))
  · exact hend

theorem Closing.quiet (h : w.Closing r) (hq : Quiet w r w' r') : w'.Closing r' := by
  obtain ⟨task, rest, hw, hnew⟩ := hq.tasks_inv
  obtain ⟨inner, hsweep⟩ | ⟨hend, -⟩ := h
  · cases inner with
    | nil =>
      cases hq with
      | sweep =>
        cases hsweep
        exact .inr ⟨rfl, rfl⟩
      | _ => cases hsweep
    | cons t inner =>
      obtain ⟨-, rfl⟩ := List.cons.inj (hw.symm.trans hsweep)
      obtain ⟨names, hw'⟩ | ⟨n, -, -, rfl⟩ := hnew
      · refine .inl ⟨names.map .enter ++ inner, ?_⟩
        rw [hw', List.append_assoc]
        rfl
      · refine .inl ⟨entryTasks r n ++ inner, ?_⟩
        rw [enter_eq, List.append_assoc]
        rfl
  · rw [hw] at hend
    cases hend

end Walk

namespace Machine

variable [Language ρ κ] {client : Client σ ρ κ} {m m' : Machine σ ρ κ}

/-- No teardown in progress will come to its sweep with callbacks left. -/
def SweepsNoCallback (m : Machine σ ρ κ) : Prop :=
  ∀ w ∈ m.walks, w.StartsBeforeSweep m.registry.disposers.names

omit [Language ρ κ] in
theorem sweepsNoCallback_of_walks (h : m.walks = []) : m.SweepsNoCallback := by
  rw [SweepsNoCallback, h]
  exact List.forall_mem_nil _

theorem SweepsNoCallback.step (hm : m.SweepsNoCallback)
    (hq : m.deed.offers = true → m.walks = [])
    (h : m.step client = some m') : m'.SweepsNoCallback := by
  have hs := strides h
  have hr := registry_step h
  rw [SweepsNoCallback] at hm ⊢
  rw [hr]
  generalize m.registry = r at hs hm
  generalize m.deed = d at hs hq
  generalize m.walks = walks at hs hq hm
  generalize m'.walks = walks' at hs
  cases hs with
  | stay hd =>
    obtain ⟨hsame, -⟩ | ⟨n, callback, -, ha⟩ := r.disposers_after hd
    · rwa [hsame]
    · rw [hq (Registry.offers_of_accepted ha)]
      exact List.forall_mem_nil _
  | one => exact List.forall_mem_cons.2 ⟨Walk.startsBeforeSweep_one _ _, hm⟩
  | all => exact List.forall_mem_cons.2 ⟨Walk.startsBeforeSweep_all _, hm⟩
  | settled outcome => exact List.forall_mem_cons.2 (List.forall_mem_cons.1 hm)
  | «over» ht =>
    rw [Registry.after, ht]
    exact (List.forall_mem_cons.1 hm).2
  | @moved walk walk' r' events _ ht =>
    have hq := Walk.quiet_of_moved ht
    obtain ⟨hhead, hrest⟩ := List.forall_mem_cons.1 hm
    rw [Registry.after, ht]
    exact List.forall_mem_cons.2
      ⟨hhead.quiet hq hq.names_subset (List.Subset.refl _), fun w hw =>
        (hrest w hw).mono hq.names_subset⟩
  | @asked walk rest n callback claimed _ ht =>
    obtain ⟨hhead, hrest⟩ := List.forall_mem_cons.1 hm
    have hrest' : (rest.settle n claimed (.ok ())).StartsBeforeSweep r.disposers.names :=
      hhead.quiet (Walk.quiet_of_ask ht (.ok ())) (List.Subset.refl _) (List.Subset.refl _)
    rw [Registry.after, ht]
    exact List.forall_mem_cons.2 ⟨hrest', hrest⟩

theorem SweepsNoCallback.swept (hm : m.SweepsNoCallback) : m.registry.swept m.deed = [] := by
  cases hd : m.deed with
  | turned walk =>
    have hw := hm walk (mem_walks_of_turned hd)
    obtain ⟨tasks, visited, report⟩ := walk
    cases tasks with
    | nil => rfl
    | cons task rest =>
      cases task with
      | sweep => exact List.map_eq_nil_iff.1 (hw.sweep rfl).1
      | _ => rfl
  | _ => rfl

theorem SweepsNoCallback.letGo {k : Nat} (hm : m.SweepsNoCallback)
    (hq : ∀ i < k, (run client i m).deed.offers = true → (run client i m).walks = []) :
    letGo client k m = [] := by
  induction k generalizing m with
  | zero => rfl
  | succ k ih =>
    cases h : m.step client with
    | none => exact tally_of_stop h _
    | some m' =>
      rw [Machine.letGo, tally_succ h, hm.swept, List.nil_append]
      refine ih (hm.step (hq 0 (Nat.succ_pos k)) h) fun i hi => ?_
      rw [← run_succ_of_step h]
      exact hq (i + 1) (Nat.succ_lt_succ hi)

/-- A complete teardown is in progress that was begun over the duties `below`. It runs, or it waits
for a destroy callback. -/
inductive Clearing (below : List (Duty κ)) (m : Machine σ ρ κ) : Prop where
  | runs {w : Walk κ} (ha : m.activity = .tearDown w) (hd : m.duties = below)
    (hw : w.Closing m.registry)
  | waits {above : List (Duty κ)} {n : Name} {claimed : Bool} {rest : Walk κ}
    {inner : List (Task κ)} (hd : m.duties = above ++ .dispose n claimed rest :: below)
    (hw : rest.tasks = inner ++ [.sweep])

section Clearing

variable {below : List (Duty κ)}

omit [Language ρ κ] in
theorem Clearing.walks (h : Clearing below m) :
    ∃ above, above ≠ [] ∧ m.walks = above ++ below.filterMap Duty.walk? := by
  cases h with
  | @runs w ha hd hw =>
    refine ⟨[w], List.cons_ne_nil _ _, ?_⟩
    rw [Machine.walks, ha, hd]
  | @waits above n claimed rest inner hd hw =>
    rw [Machine.walks, hd, List.filterMap_append, ← List.append_assoc]
    exact ⟨_, List.append_ne_nil_of_right_ne_nil _ (List.cons_ne_nil rest []),
      List.append_cons _ rest _⟩

theorem Clearing.of_turn {w : Walk κ} (ha : m.activity = .tearDown w) (hd : m.duties = below)
    (hw : w.Closing m.registry) (h : m.step client = some m') :
    m.registry.reply? m.deed = none ∧ Clearing below m' ∨
      (m.registry.reply? m.deed).isSome ∧ m'.duties = below ∧
        m'.walks = below.filterMap Duty.walk? ∧ m'.registry.sweep = m'.registry := by
  obtain ⟨r, memory, activity, callers⟩ := m
  cases ha
  rw [step.eq_def] at h
  simp only at h
  cases ht : w.turn r with
  | «over» =>
    rw [ht] at h
    obtain ⟨hr, hd'⟩ := answer_inv h
    have hend : r.sweep = r := hw.swept (Walk.tasks_of_over ht)
    have hreply : (r.reply? (.turned w)).isSome := by
      rw [Registry.reply?, ht]
      rfl
    exact .inr ⟨hreply, hd'.trans hd, by rw [walks_answer h, ← hd]; rfl, hr ▸ hend⟩
  | moved w' r' events =>
    rw [ht] at h
    cases h
    exact .inl ⟨by simp only [deed, Registry.reply?, ht],
      .runs rfl hd (hw.quiet (Walk.quiet_of_moved ht))⟩
  | ask n callback claimed rest =>
    rw [ht] at h
    cases h
    obtain ⟨inner, hsweep⟩ | ⟨hend, -⟩ := hw
    · rw [Walk.tasks_of_ask ht] at hsweep
      cases inner with
      | nil => cases hsweep
      | cons task inner =>
        have hduties : .dispose n claimed rest :: callers.map (·.duty) =
            [] ++ .dispose n claimed rest :: below := by
          rw [← hd]
          rfl
        exact .inl ⟨by simp only [deed, Registry.reply?, ht],
          .waits hduties (List.cons.inj hsweep).2⟩
    · exact absurd hend (Walk.tasks_ne_nil (by rw [ht]; intro hn; cases hn))

theorem Clearing.step (hc : Clearing below m) (h : m.step client = some m') :
    ((m.registry.reply? m.deed = none ∨ below.length < m'.duties.length) ∧ Clearing below m') ∨
      (m.registry.reply? m.deed).isSome ∧ m'.duties = below ∧
        m'.walks = below.filterMap Duty.walk? ∧ m'.registry.sweep = m'.registry := by
  cases hc with
  | runs ha hd hw => exact (Clearing.of_turn ha hd hw h).imp_left (And.imp_left .inl)
  | @waits above n claimed rest inner hd hw =>
    left
    -- Whatever the callback calls stands above its frame, which goes only when the callback ends.
    obtain ⟨hends, hd'⟩ | ⟨above', hd'⟩ := frame_step hd h
    · have hdeed : m.deed = .disposed n claimed rest := Deed.ends?_dispose hends
      obtain ⟨outcome, ha⟩ := activity_of_disposed hdeed h
      exact ⟨.inl (by rw [hdeed, Registry.reply?]), .runs ha hd' (.inl ⟨inner, hw⟩)⟩
    · refine ⟨.inr ?_, .waits hd' hw⟩
      simp only [hd', List.length_append, List.length_cons]
      omega

theorem Clearing.run {k : Nat} (hc : Clearing below m)
    (hk : ∀ j < k, (run client j m).gives client below.length = none) :
    Clearing below (Machine.run client k m) := by
  refine run_keeps (P := Clearing below) hc fun j hj m' hc h => ?_
  obtain ⟨-, hc'⟩ | ⟨hreply, hd, -⟩ := hc.step h
  · exact hc'
  · obtain ⟨a, ha⟩ := Option.isSome_iff_exists.1 hreply
    have hg := gives_of_reply h ha
    rw [hd, hk j hj] at hg
    cases hg

theorem clearing_of_destroyAll {j k : Nat} {a : Answer} (hd : m.deed = .asked .destroyAll)
    (ha : m.AnswersAfter client k a) (hj : j < k) : Clearing m.duties (run client (j + 1) m) := by
  obtain ⟨memory, caller, callers, hstep, hduties⟩ := step_tearDown client hd rfl
  have hstart : Clearing m.duties ⟨{ m.registry with store := m.registry.store.close }, memory,
      .tearDown (.all m.registry.disposers), caller :: callers⟩ :=
    .runs rfl hduties (Walk.closing_all _)
  rw [run_succ_of_step hstep]
  refine hstart.run fun i hi => ?_
  rw [← run_succ_of_step hstep]
  exact ha.2 (i + 1) (by omega)

theorem above_of_destroyAll {j k : Nat} {a : Answer} (hd : m.deed = .asked .destroyAll)
    (ha : m.AnswersAfter client k a) (hj : j < k) :
    ∃ above, above ≠ [] ∧ (run client (j + 1) m).walks = above ++ m.walks := by
  rw [walks_of_asked hd]
  exact (clearing_of_destroyAll hd ha hj).walks

theorem swept_of_destroyAll {k : Nat} {a : Answer} (hd : m.deed = .asked .destroyAll)
    (ha : m.AnswersAfter client k a) :
    (run client (k + 1) m).walks = m.duties.filterMap Duty.walk? ∧
      (run client (k + 1) m).registry.sweep = (run client (k + 1) m).registry := by
  obtain ⟨m', h, hlen, hreply⟩ := gives_inv ha.1
  cases k with
  | zero =>
    rw [run_zero, hd] at hreply
    cases hreply
  | succ k =>
    rw [run_succ, h, Option.getD_some]
    obtain ⟨hnone | hlt, -⟩ | ⟨-, -, hend⟩ :=
      (clearing_of_destroyAll hd ha (Nat.lt_succ_self k)).step h
    · rw [hnone] at hreply
      cases hreply
    · omega
    · exact hend

theorem entries_of_destroyAll {k : Nat} {a : Answer} (hd : m.deed = .asked .destroyAll)
    (ha : m.AnswersAfter client k a) :
    (run client (k + 1) m).walks = m.duties.filterMap Duty.walk? ∧
      (run client (k + 1) m).registry.disposers.entries = [] := by
  obtain ⟨hwalks, hswept⟩ := swept_of_destroyAll hd ha
  exact ⟨hwalks, congrArg (fun r => r.disposers.entries) hswept.symm⟩

end Clearing

omit [Language ρ κ] in
theorem holding_of_empty (hw : m.walks = []) (he : m.registry.disposers.entries = []) :
    m.holding = [] := by
  rw [holding, hw, he]
  rfl

/-- No destroy callback runs more often than it was accepted. A complete teardown that no other
teardown waits for leaves none that has not run, whatever callbacks do while others run, as long
as they offer no more callbacks. -/
theorem callbacks_run_once (client : Client σ ρ κ) (settings : Settings) (memory : σ)
    (main : Program σ ρ Unit) :
    let start := ofMain settings.registry memory main
    (∀ k, (invoked client k start).Subperm (accepted client k start)) ∧
      ∀ j k a, (run client j start).deed = .asked .destroyAll → (run client j start).walks = [] →
        (run client j start).AnswersAfter client k a →
        (∀ i ≤ j + k, (run client i start).deed.offers = true →
          (run client i start).walks = []) →
        (invoked client (j + k + 1) start).Perm (accepted client (j + k + 1) start) := by
  intro start
  have hnames : start.registry.disposers.names.Nodup := List.nodup_nil
  have hcustody (k : Nat) : (accepted client k start).Perm
      (invoked client k start ++ (letGo client k start ++ (run client k start).holding)) := by
    have hrun := holding_run client hnames k
    rwa [show start.holding = [] from rfl, List.append_nil] at hrun
  refine ⟨fun k => (List.sublist_append_left _ _).subperm.trans (hcustody k).symm.subperm,
    fun j k a hd hw ha hq => ?_⟩
  have hspared : start.SweepsNoCallback := sweepsNoCallback_of_walks rfl
  have hlet : letGo client (j + k + 1) start = [] :=
    hspared.letGo fun i hi => hq i (Nat.le_of_lt_succ hi)
  obtain ⟨hwalks, hentries⟩ := entries_of_destroyAll hd ha
  rw [← run_add] at hwalks hentries
  rw [← walks_of_asked hd, hw] at hwalks
  have hend := (hcustody (j + k + 1)).symm
  rwa [hlet, List.nil_append, Nat.add_assoc, holding_of_empty hwalks hentries, List.append_nil]
    at hend

section Reentrant

def reentrant : Client Unit (Request Bool) Bool where
  factory _ := return .ok ⟨0, .unit⟩
  early _ := return ⟨0, .unit⟩
  disposer calls := do
    if calls then
      let _ ← Program.ask (.destroy "b")
      let _ ← Program.ask .destroyAll
      return .error .emptyName
    return .ok ()
  hear _ memory := memory

def load : Program Unit (Request Bool) Unit := do
  let _ ← .ask (.onDestroy "c" false)
  let _ ← .ask (.onDestroy "b" false)
  let _ ← .ask (.onDestroy "a" true)
  let _ ← .ask .destroyAll

def laden : Machine Unit (Request Bool) Bool := .ofMain ({} : Settings).registry () load

theorem callbacks_run_once_reentrant :
    (run reentrant 3 laden).deed = .asked .destroyAll ∧ (run reentrant 3 laden).walks = [] ∧
      (∀ i ≤ 37, (run reentrant i laden).deed.offers = true → (run reentrant i laden).walks = []) ∧
      (run reentrant 3 laden).AnswersAfter reentrant 34
        (.report ⟨["a"], [("a", .emptyName)]⟩) ∧
      invoked reentrant 38 laden = [("a", true), ("b", false), ("c", false)] ∧
      (invoked reentrant 38 laden).Perm (accepted reentrant 38 laden) := by
  have hd : (run reentrant 3 laden).deed = .asked .destroyAll := rfl
  have hw : (run reentrant 3 laden).walks = [] := rfl
  have hq : ∀ i ≤ 37, (run reentrant i laden).deed.offers = true →
      (run reentrant i laden).walks = [] := by decide
  have ha : (run reentrant 3 laden).AnswersAfter reentrant 34
      (.report ⟨["a"], [("a", .emptyName)]⟩) := ⟨rfl, by decide⟩
  have honce := callbacks_run_once reentrant {} () load
  exact ⟨hd, hw, hq, ha, by decide, honce.2 3 34 _ hd hw ha hq⟩

end Reentrant

end Machine

end ObjectRegistry
