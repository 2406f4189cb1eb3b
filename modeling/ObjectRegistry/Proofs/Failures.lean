import ObjectRegistry.Proofs.Coverage
import ObjectRegistry.Proofs.Disposal
import ObjectRegistry.Proofs.Recursion

namespace ObjectRegistry

variable {σ τ ρ κ : Type}

def Report.failed? : Name × Except Fault Unit → Option (Name × Fault)
  | (n, .error fault) => some (n, fault)
  | (_, .ok ()) => none

/-- The report has one failure for each of the callbacks run that came to one, in order, and whoever
had a callback is reported as torn down. -/
structure Report.Tells (report : Report) (runs : List (Name × κ))
    (verdicts : List (Name × Except Fault Unit)) : Prop where
  ended : verdicts.map (·.1) = runs.map (·.1)
  failures : report.failures = verdicts.filterMap failed?
  destroyed : ∀ entry ∈ runs, entry.1 ∈ report.destroyed

namespace Walk

/-- The walks differ at most in the failures they are going to report. -/
structure Alike (w v : Walk κ) : Prop where
  tasks : w.tasks = v.tasks
  visited : w.visited = v.visited
  destroyed : w.report.destroyed = v.report.destroyed

variable {w v : Walk κ}

theorem Alike.refl (w : Walk κ) : w.Alike w := ⟨rfl, rfl, rfl⟩

theorem Alike.settle (h : w.Alike v) (n : Name) (claimed : Bool)
    (outcome outcome' : Except Fault Unit) :
    (w.settle n claimed outcome).Alike (v.settle n claimed outcome') where
  tasks := h.tasks
  visited := h.visited
  destroyed := by simp [Walk.settle, Report.settle, h.destroyed]

end Walk

inductive Turn.Alike : Turn κ → Turn κ → Prop where
  | over : Alike .over .over
  | moved {w v : Walk κ} {r : Registry κ} {events events' : List Event} (h : w.Alike v) :
    Alike (.moved w r events) (.moved v r events')
  | ask {n : Name} {callback : κ} {claimed : Bool} {w v : Walk κ} (h : w.Alike v) :
    Alike (.ask n callback claimed w) (.ask n callback claimed v)

namespace Walk

variable {w v w₁ w' v' : Walk κ} {r r₁ r' r'' : Registry κ}

theorem Alike.turn (h : w.Alike v) (r : Registry κ) : (w.turn r).Alike (v.turn r) := by
  obtain ⟨tasks, visited, report⟩ := w
  obtain ⟨tasks', visited', report'⟩ := v
  obtain ⟨rfl, rfl, hd⟩ := h
  cases tasks with
  | nil => exact .over
  | cons task rest =>
    cases task with
    | start n | contained n | forget n | sweep => exact .moved ⟨rfl, rfl, hd⟩
    | dispose n callback claimed =>
      cases callback with
      | some callback => exact .ask ⟨rfl, rfl, hd⟩
      | none =>
        have hrest : Alike ⟨rest, visited, report⟩ ⟨rest, visited, report'⟩ := ⟨rfl, rfl, hd⟩
        exact .moved (hrest.settle n claimed (.ok ()) (.ok ()))
    | enter n =>
      simp only [Walk.turn]
      split
      · exact .moved ⟨rfl, rfl, hd⟩
      · exact .moved ⟨rfl, rfl, hd⟩

/-- The course of a teardown whose callbacks keep to themselves: the callbacks that it runs, in
order, each with what it comes to. -/
inductive Course :
    Walk κ → Registry κ → List ((Name × κ) × Except Fault Unit) → Walk κ → Registry κ → Prop where
  | stay (w : Walk κ) (r : Registry κ) : Course w r [] w r
  | moved {w w₁ w' : Walk κ} {r r₁ r' : Registry κ} {events : List Event}
    {ran : List ((Name × κ) × Except Fault Unit)} (ht : w.turn r = .moved w₁ r₁ events)
    (rest : Course w₁ r₁ ran w' r') : Course w r ran w' r'
  | called {w w₁ w' : Walk κ} {r r' : Registry κ} {n : Name} {callback : κ} {claimed : Bool}
    {ran : List ((Name × κ) × Except Fault Unit)} (ht : w.turn r = .ask n callback claimed w₁)
    (outcome : Except Fault Unit) (rest : Course (w₁.settle n claimed outcome) r ran w' r') :
    Course w r (((n, callback), outcome) :: ran) w' r'

variable {ran ran' : List ((Name × κ) × Except Fault Unit)}

theorem Course.trans (h : Course w r ran w₁ r₁) (h' : Course w₁ r₁ ran' w' r') :
    Course w r (ran ++ ran') w' r' := by
  induction h with
  | stay => exact h'
  | moved ht _ ih => exact .moved ht (ih h')
  | called ht outcome _ ih => exact .called ht outcome (ih h')

theorem Course.quiets (h : Course w r ran w' r') : Quiets w r w' r' := by
  induction h with
  | stay w r => exact .refl w r
  | moved ht _ ih => exact .head (quiet_of_moved ht) ih
  | called ht outcome _ ih => exact .head (quiet_of_ask ht outcome) ih

/-- Two teardowns that start alike run the same callbacks in the same order and end alike, whatever
the callbacks come to. -/
theorem Course.alike (h : Course w r ran w' r') (h' : Course v r ran' v' r'') (ha : w.Alike v)
    (hw : w'.tasks = []) (hv : v'.tasks = []) :
    ran.map (·.1) = ran'.map (·.1) ∧ w'.Alike v' ∧ r' = r'' := by
  induction h generalizing v ran' with
  | stay w r =>
    have hturn := ha.turn r
    rw [turn_eq_over hw] at hturn
    cases h' with
    | stay => exact ⟨rfl, ha, rfl⟩
    | moved ht | called ht =>
      rw [ht] at hturn
      cases hturn
  | @moved _ _ _ s _ _ _ _ ht _ ih =>
    have hturn := ha.turn s
    rw [ht] at hturn
    cases h' with
    | stay =>
      rw [turn_eq_over hv] at hturn
      cases hturn
    | moved ht' rest =>
      rw [ht'] at hturn
      cases hturn with
      | moved h₁ => exact ih rest h₁ hw
    | called ht' =>
      rw [ht'] at hturn
      cases hturn
  | @called _ _ _ s _ n callback claimed _ ht outcome _ ih =>
    have hturn := ha.turn s
    rw [ht] at hturn
    cases h' with
    | stay =>
      rw [turn_eq_over hv] at hturn
      cases hturn
    | moved ht' =>
      rw [ht'] at hturn
      cases hturn
    | called ht' outcome' rest =>
      rw [ht'] at hturn
      cases hturn with
      | ask h₁ =>
        obtain ⟨hran, hend⟩ := ih rest (h₁.settle n claimed outcome outcome') hw
        exact ⟨congrArg ((n, callback) :: ·) hran, hend⟩

theorem failures_of_moved {events : List Event} (h : w.turn r = .moved w' r' events) :
    w'.report.failures = w.report.failures := by
  obtain ⟨tasks, visited, report⟩ := w
  cases tasks with
  | nil => cases h
  | cons task rest =>
    cases task with
    | start | contained | forget | sweep =>
      cases h
      rfl
    | dispose n callback claimed =>
      cases callback <;> cases h
      rfl
    | enter n =>
      simp only [turn] at h
      split at h <;> cases h <;> rfl

theorem Course.failures (h : Course w r ran w' r') :
    w'.report.failures =
      w.report.failures ++ ran.filterMap fun e => Report.failed? (e.1.1, e.2) := by
  induction h with
  | stay => simp
  | moved ht _ ih => rw [ih, failures_of_moved ht]
  | @called w w₁ _ _ _ n callback claimed ran ht outcome _ ih =>
    rw [ih, eq_of_ask ht]
    cases outcome <;> simp [Walk.settle, Report.settle, Report.failed?]

theorem Quiets.destroyed_subset (h : Quiets w r w' r') :
    w.report.destroyed ⊆ w'.report.destroyed := by
  induction h with
  | refl => exact List.Subset.refl _
  | head h _ ih => exact fun n hn => ih (h.destroyed_subset hn)

theorem Course.reported (h : Course w r ran w' r') (hc : w.Claims) :
    ∀ e ∈ ran, e.1.1 ∈ w'.report.destroyed := by
  induction h with
  | stay => simp
  | moved ht _ ih => exact ih (hc.quiet (quiet_of_moved ht))
  | called ht outcome rest ih =>
    intro e he
    obtain rfl | he := List.mem_cons.1 he
    · apply rest.quiets.destroyed_subset
      have hclaimed := hc (by rw [tasks_of_ask ht]; exact List.mem_cons_self)
      simp [Walk.settle, Report.settle, hclaimed]
    · exact ih (hc.quiet (quiet_of_ask ht outcome)) e he

theorem Course.tells (h : Course w r ran w' r') (hc : w.Claims) (hf : w.report.failures = []) :
    w'.report.Tells (ran.map (·.1)) (ran.map fun e => (e.1.1, e.2)) where
  ended := by simp
  failures := by
    rw [h.failures, hf, List.nil_append, List.filterMap_map]
    rfl
  destroyed entry he := by
    obtain ⟨e, hmem, rfl⟩ := List.mem_map.1 he
    exact h.reported hc e hmem

end Walk

namespace Machine

def verdict? (m : Machine σ ρ κ) : Option (Name × Except Fault Unit) :=
  match m.activity with
  | .code (.dispose n _ _) program => program.outcome?.map (n, ·)
  | _ => none

variable {w₀ : Walk κ} {r₀ : Registry κ} {callers : List (Caller σ ρ κ)} {runs : List (Name × κ)}
  {ends : List (Name × Except Fault Unit)}

/-- A teardown that set out as `w₀`, and the callbacks that it has run and seen end since. -/
inductive Tearing (w₀ : Walk κ) (r₀ : Registry κ) (callers : List (Caller σ ρ κ)) :
    List (Name × κ) → List (Name × Except Fault Unit) → Machine σ ρ κ → Prop where
  | walking {w : Walk κ} {r : Registry κ} {memory : σ}
    {ran : List ((Name × κ) × Except Fault Unit)} (h : w₀.Course r₀ ran w r) :
    Tearing w₀ r₀ callers (ran.map (·.1)) (ran.map fun e => (e.1.1, e.2))
      ⟨r, memory, .tearDown w, callers⟩
  | calling {w rest : Walk κ} {r : Registry κ} {memory : σ} {n : Name} {callback : κ}
    {claimed : Bool} {program : Program σ ρ (Except Fault Unit)}
    {ran : List ((Name × κ) × Except Fault Unit)} (h : w₀.Course r₀ ran w r)
    (ht : w.turn r = .ask n callback claimed rest) (hp : program.Silent) :
    Tearing w₀ r₀ callers (ran.map (·.1) ++ [(n, callback)]) (ran.map fun e => (e.1.1, e.2))
      ⟨r, memory, .code (.dispose n claimed rest) program, callers⟩

theorem Tearing.settled {w rest : Walk κ} {r : Registry κ} {memory : σ} {n : Name} {callback : κ}
    {claimed : Bool} {ran : List ((Name × κ) × Except Fault Unit)} (h : w₀.Course r₀ ran w r)
    (ht : w.turn r = .ask n callback claimed rest) (outcome : Except Fault Unit) :
    Tearing w₀ r₀ callers (ran.map (·.1) ++ [(n, callback)])
      ((ran.map fun e => (e.1.1, e.2)) ++ [(n, outcome)])
      ⟨r, memory, .tearDown (rest.settle n claimed outcome), callers⟩ := by
  have hnext : Tearing w₀ r₀ callers _ _
      ⟨r, memory, .tearDown (rest.settle n claimed outcome), callers⟩ :=
    .walking (h.trans (.called ht outcome (.stay _ _)))
  simpa using hnext

variable [Language ρ κ] {client : Client σ ρ κ} {m m' : Machine σ ρ κ}

def verdicts (client : Client σ ρ κ) (k : Nat) (m : Machine σ ρ κ) :
    List (Name × Except Fault Unit) :=
  (List.range k).filterMap fun j => (run client j m).verdict?

theorem verdicts_succ (k : Nat) :
    verdicts client (k + 1) m = verdicts client k m ++ (run client k m).verdict?.toList := by
  rw [verdicts, verdicts, List.range_succ, List.filterMap_append]
  cases h : (run client k m).verdict? <;> simp [h]

theorem tally_run_succ {α : Type} {yield : Registry κ → Deed κ → List α} {k : Nat}
    (h : (run client k m).step client = some m') :
    tally yield client (k + 1) m =
      tally yield client k m ++ yield (run client k m).registry (run client k m).deed := by
  induction k generalizing m with
  | zero =>
    rw [run_zero] at h ⊢
    simp [tally, h]
  | succ k ih =>
    cases hs : m.step client with
    | none =>
      rw [run_of_stop hs, hs] at h
      cases h
    | some m₁ =>
      rw [run_succ_of_step hs] at h ⊢
      rw [tally_succ hs, tally_succ hs, ih h, List.append_assoc]

theorem Tearing.step (hm : Tearing w₀ r₀ callers runs ends m)
    (hc : w₀.Callbacks (fun callback => (client.disposer callback).Silent) r₀)
    (h : m.step client = some m') (hmute : m.Mute) :
    Tearing w₀ r₀ callers (runs ++ (m.registry.invoked? m.deed).toList)
      (ends ++ m.verdict?.toList) m' := by
  cases hm with
  | @walking w r memory ran hcourse =>
    simp only [Machine.step] at h
    simp only [Mute, deed, Registry.reply?] at hmute
    simp only [deed, Registry.invoked?, Registry.launch?, verdict?, Option.toList_none,
      List.append_nil]
    cases ht : w.turn r with
    | «over» =>
      rw [ht] at hmute
      cases hmute
    | moved w' r' events =>
      rw [ht] at h
      cases h
      simpa using Tearing.walking (hcourse.trans (.moved ht (.stay w' r')))
    | ask n callback claimed rest =>
      rw [ht] at h
      cases h
      have hcallbacks := hcourse.quiets.keeps hc fun hc hq => hc.quiet hq
      have hmem : .dispose n (some callback) claimed ∈ w.tasks := by
        rw [Walk.tasks_of_ask ht]
        exact List.mem_cons_self
      exact .calling hcourse ht (hcallbacks.waiting hmem)
  | @calling w rest r memory n callback claimed program ran hcourse ht hp =>
    let calling : Machine σ ρ κ := ⟨r, memory, .code (.dispose n claimed rest) program, callers⟩
    have hi : r.invoked? calling.deed = none := by
      cases program with
      | call => cases hp
      | _ => rfl
    rw [hi, Option.toList_none, List.append_nil]
    cases program with
    | done outcome =>
      cases h
      exact .settled hcourse ht outcome
    | panic p =>
      cases h
      exact .settled hcourse ht _
    | access change next =>
      cases h
      simpa [verdict?, Program.outcome?] using Tearing.calling hcourse ht (hp memory)
    | call request next => cases hp

theorem Tearing.mute_or_over (hm : Tearing w₀ r₀ callers runs ends m) :
    m.Mute ∨ ∃ w r ran memory, m = ⟨r, memory, .tearDown w, callers⟩ ∧ w₀.Course r₀ ran w r ∧
      w.tasks = [] ∧ runs = ran.map (·.1) ∧ ends = ran.map fun e => (e.1.1, e.2) := by
  cases hm with
  | @walking w r memory ran hcourse =>
    cases ht : w.turn r with
    | «over» => exact .inr ⟨w, r, ran, memory, rfl, hcourse, Walk.tasks_of_over ht, rfl, rfl⟩
    | moved | ask =>
      left
      simp only [Mute, deed, Registry.reply?, ht]
  | @calling _ _ _ _ _ _ _ program _ hcourse ht hp =>
    left
    cases program with
    | call => cases hp
    | _ => rfl

theorem Tearing.mute {caller : Caller σ ρ κ} (hm : Tearing w₀ r₀ (caller :: callers) runs ends m)
    (hg : m.gives client ((caller :: callers).map (·.duty)).length = none) : m.Mute := by
  refine hm.mute_or_over.resolve_right ?_
  rintro ⟨w, r, ran, memory, rfl, -, hw, -⟩
  obtain ⟨hlast, hreply⟩ := step_over client r memory caller callers hw
  cases hg.symm.trans (gives_of_reply hlast hreply)

theorem verdict?_of_asked {op : Op κ} (hd : m.deed = .asked op) : m.verdict? = none := by
  obtain ⟨duty, request, next, ha, -⟩ := call_of_asked hd
  rw [verdict?, ha]
  cases duty <;> rfl

section Course

variable {op : Op κ} {events : List Event} {k : Nat} {a : Answer} (hd : m.deed = .asked op)
  (hs : m.registry.start op = .tearDown w₀ r₀ events)
  (hc : w₀.Callbacks (fun callback => (client.disposer callback).Silent) r₀)
  (ha : m.AnswersAfter client k a)
include hd hs hc ha

theorem tearing_run {caller : Caller σ ρ κ} {memory : σ}
    (hstep : m.step client = some ⟨r₀, memory, .tearDown w₀, caller :: callers⟩)
    (hduties : (caller :: callers).map (·.duty) = m.duties) :
    ∀ j < k, Tearing w₀ r₀ (caller :: callers) (invoked client (j + 1) m)
      (verdicts client (j + 1) m) (run client (j + 1) m) := by
  intro j hj
  induction j with
  | zero =>
    have hlaunch : m.registry.invoked? m.deed = none := by
      rw [hd, Registry.invoked?, Registry.launch?, hs]
      rfl
    rw [run_succ_of_step hstep, verdicts_succ, run_zero, verdict?_of_asked hd, invoked,
      tally_succ hstep, hlaunch]
    exact .walking (.stay w₀ r₀)
  | succ j ih =>
    have hm := ih (by omega)
    have hmute : (run client (j + 1) m).Mute := hm.mute (hduties ▸ ha.2 (j + 1) hj)
    obtain ⟨m'', hlast, -⟩ := gives_inv ha.1
    obtain ⟨m', h⟩ := step_of_le (Nat.le_of_lt hj) hlast
    rw [run_succ, h, verdicts_succ, invoked, tally_run_succ h]
    exact hm.step hc h hmute

theorem course_of_answersAfter :
    ∃ ran w r, w₀.Course r₀ ran w r ∧ w.tasks = [] ∧ a = .report w.report ∧
      (run client (k + 1) m).registry = r ∧ invoked client (k + 1) m = ran.map (·.1) ∧
      verdicts client (k + 1) m = ran.map fun e => (e.1.1, e.2) := by
  obtain ⟨memory, caller, callers, hstep, hduties⟩ := step_tearDown client hd hs
  obtain - | k := k
  · have hm : m.Mute := by
      rw [Mute, hd, Registry.reply?, hs]
      rfl
    have hgives := ha.1
    rw [run_zero, hm.gives] at hgives
    cases hgives
  have htearing := tearing_run hd hs hc ha hstep hduties k (Nat.lt_succ_self k)
  obtain hmute | ⟨w, r, ran, memory', hrun, hcourse, hw, hruns, hends⟩ := htearing.mute_or_over
  · have hgives := ha.1
    rw [hmute.gives] at hgives
    cases hgives
  obtain ⟨hlast, hreply⟩ := step_over client r memory' caller callers hw
  have hreport : a = .report w.report := by
    have hk := ha.1
    rw [hrun, ← hduties] at hk
    exact Option.some.inj (hk.symm.trans (gives_of_reply hlast hreply))
  refine ⟨ran, w, r, hcourse, hw, hreport, ?_, ?_, ?_⟩
  · rw [run_succ, hrun, hlast]
    rfl
  · rw [invoked, tally_run_succ (by rw [hrun]; exact hlast), ← invoked, hruns, hrun]
    simp [deed, Registry.invoked?, Registry.launch?, Walk.turn_eq_over hw]
  · rw [verdicts_succ, hends, hrun]
    simp [verdict?]

end Course

/-- Two teardowns of the same kind on the same registry, whose destroy callbacks keep to themselves
but may succeed, fail or panic as they like: both end, they run the same callbacks in the same
order, report the same names as torn down, and leave the same registry. The failures in each report
are those of the callbacks it has run. -/
theorem failures_change_reports_only {client : Client σ ρ κ} {client' : Client τ ρ κ}
    {m : Machine σ ρ κ} {m' : Machine τ ρ κ} {op : Op κ} (hr : m.registry = m'.registry)
    (hd : m.deed = .asked op) (hd' : m'.deed = .asked op)
    (hop : op = .destroyAll ∨ ∃ n, op = .destroy n)
    (hs : ∀ entry ∈ m.registry.disposers.entries, (client.disposer entry.2).Silent)
    (hs' : ∀ entry ∈ m.registry.disposers.entries, (client'.disposer entry.2).Silent) :
    ∃ k k' report report',
      m.AnswersAfter client k (.report report) ∧ m'.AnswersAfter client' k' (.report report') ∧
      invoked client (k + 1) m = invoked client' (k' + 1) m' ∧
      report.destroyed = report'.destroyed ∧
      (run client (k + 1) m).registry = (run client' (k' + 1) m').registry ∧
      report.Tells (invoked client (k + 1) m) (verdicts client (k + 1) m) ∧
      report'.Tells (invoked client' (k' + 1) m') (verdicts client' (k' + 1) m') := by
  obtain ⟨w₀, r₀, events, hstart, hu, -, -, hcallbacks⟩ := Walk.untouched_of_start hop m.registry
  have hfailures : w₀.report.failures = [] := by rw [hu.report]
  have hstart' : m'.registry.start op = .tearDown w₀ r₀ events := hr ▸ hstart
  have hc := hcallbacks (fun callback => (client.disposer callback).Silent) hs
  have hc' := hcallbacks (fun callback => (client'.disposer callback).Silent) hs'
  obtain ⟨_, _, -, -, k, ha⟩ := tearDown_answers hd hstart hc
  obtain ⟨_, _, -, -, k', ha'⟩ := tearDown_answers hd' hstart' hc'
  obtain ⟨ran, w, r, hcourse, hw, hreport, hrun, hruns, hends⟩ :=
    course_of_answersAfter hd hstart hc ha
  obtain ⟨ran', w', r', hcourse', hw', hreport', hrun', hruns', hends'⟩ :=
    course_of_answersAfter hd' hstart' hc' ha'
  obtain ⟨hsame, halike, hregistry⟩ := hcourse.alike hcourse' (Walk.Alike.refl w₀) hw hw'
  rw [hreport] at ha
  rw [hreport'] at ha'
  refine ⟨k, k', w.report, w'.report, ha, ha', ?_, halike.destroyed, ?_, ?_, ?_⟩
  · rw [hruns, hruns', hsame]
  · rw [hrun, hrun', hregistry]
  · rw [hruns, hends]
    exact hcourse.tells hu.claims hfailures
  · rw [hruns', hends']
    exact hcourse'.tells hu.claims hfailures

def forgiving : Client Unit (Request Unit) Unit where
  factory _ := return .ok ⟨0, .unit⟩
  early _ := return ⟨0, .unit⟩
  disposer _ := return .ok ()
  hear _ memory := memory

def faltering : Client Nat (Request Unit) Unit where
  factory _ := return .ok ⟨0, .unit⟩
  early _ := return ⟨0, .unit⟩
  disposer _ := .access (· + 1) fun count =>
    if count = 0 then .done (.error (.raised "no")) else .panic ⟨none⟩
  hear _ memory := memory

def linked (client : Client σ (Request Unit) Unit) (memory : σ) : Machine σ (Request Unit) Unit :=
  run client 4 (.ofMain ({} : Settings).registry memory (do
    let _ ← .ask (.onDestroy "a" ())
    let _ ← .ask (.onDestroy "b" ())
    let _ ← .ask (.addDependency "a" "b")
    let _ ← .ask (.addDependency "b" "a")
    let _ ← .ask .destroyAll))

theorem failures_change_reports_only_linked :
    let m := linked forgiving ()
    let m' := linked faltering 0
    let runs := [("a", ()), ("b", ())]
    let failures : List (Name × Fault) :=
      [("a", .raised "no"), ("b", .raised "destroy callback panicked: unknown panic")]
    m.registry = m'.registry ∧ m.deed = .asked .destroyAll ∧ m'.deed = .asked .destroyAll ∧
      m.AnswersAfter forgiving 19 (.report ⟨["a", "b"], []⟩) ∧
      m'.AnswersAfter faltering 21 (.report ⟨["a", "b"], failures⟩) ∧
      invoked forgiving 20 m = runs ∧ invoked faltering 22 m' = runs ∧
      (run forgiving 20 m).registry = (run faltering 22 m').registry ∧
      Report.Tells ⟨["a", "b"], failures⟩ runs (verdicts faltering 22 m') := by
  intro m m' runs failures
  have hr : m.registry = m'.registry := rfl
  have hd : m.deed = .asked .destroyAll := rfl
  have hd' : m'.deed = .asked .destroyAll := rfl
  have hs : ∀ entry ∈ m.registry.disposers.entries, (forgiving.disposer entry.2).Silent :=
    fun _ _ => trivial
  have hs' : ∀ entry ∈ m.registry.disposers.entries, (faltering.disposer entry.2).Silent := by
    intro entry _ count
    change (if count = 0 then _ else _ : Program Nat (Request Unit) (Except Fault Unit)).Silent
    split <;> trivial
  have ha : m.AnswersAfter forgiving 19 (.report ⟨["a", "b"], []⟩) := ⟨rfl, by decide⟩
  have ha' : m'.AnswersAfter faltering 21 (.report ⟨["a", "b"], failures⟩) := ⟨rfl, by decide⟩
  have hruns' : invoked faltering 22 m' = runs := rfl
  obtain ⟨k, k', report, report', hk, hk', hsame, -, hregistry, -, htells⟩ :=
    failures_change_reports_only hr hd hd' (.inl rfl) hs hs'
  obtain ⟨rfl, hreport⟩ := ha.unique hk
  obtain ⟨rfl, hreport'⟩ := ha'.unique hk'
  cases hreport'
  rw [hruns'] at hsame htells
  exact ⟨hr, hd, hd', ha, ha', hsame, hruns', hregistry, htells⟩

end Machine

end ObjectRegistry
