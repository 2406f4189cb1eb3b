import ObjectRegistry.Proofs.Obtain
import ObjectRegistry.Proofs.Quiet

namespace ObjectRegistry

variable {σ ρ κ : Type}

def Duty.walk? : Duty κ → Option (Walk κ)
  | .dispose _ _ rest => some rest
  | _ => none

/-- What a step that does a deed may do to the teardowns in progress. -/
inductive Strides (r : Registry κ) : Deed κ → List (Walk κ) → List (Walk κ) → Prop where
  | stay {d : Deed κ} {walks : List (Walk κ)} (hd : ∀ walk, d ≠ .turned walk) :
    Strides r d walks walks
  | one {n : Name} {walks : List (Walk κ)} :
    Strides r (.asked (.destroy n)) walks (.one n :: walks)
  | all {walks : List (Walk κ)} :
    Strides r (.asked .destroyAll) walks (.all r.disposers :: walks)
  | settled {n : Name} {claimed : Bool} {rest : Walk κ} {walks : List (Walk κ)}
    (outcome : Except Fault Unit) :
    Strides r (.disposed n claimed rest) (rest :: walks) (rest.settle n claimed outcome :: walks)
  | over {walk : Walk κ} {walks : List (Walk κ)} (ht : walk.turn r = .over) :
    Strides r (.turned walk) (walk :: walks) walks
  | moved {walk walk' : Walk κ} {r' : Registry κ} {events : List Event} {walks : List (Walk κ)}
    (ht : walk.turn r = .moved walk' r' events) :
    Strides r (.turned walk) (walk :: walks) (walk' :: walks)
  | asked {walk rest : Walk κ} {n : Name} {callback : κ} {claimed : Bool}
    {walks : List (Walk κ)} (ht : walk.turn r = .ask n callback claimed rest) :
    Strides r (.turned walk) (walk :: walks) (rest :: walks)

namespace Walk

variable {walk walk' rest : Walk κ} {r r' : Registry κ}

theorem tasks_of_over (h : walk.turn r = .over) : walk.tasks = [] := by
  refine Classical.byContradiction fun hw => ?_
  obtain ⟨_, _, _, ht, -⟩ | ⟨_, _, _, _, ht, -⟩ := turn_quiet (r := r) hw <;>
    cases h.symm.trans ht

theorem tasks_ne_nil (h : walk.turn r ≠ .over) : walk.tasks ≠ [] :=
  fun hw => h (turn_eq_over hw r)

theorem quiet_of_moved {events : List Event} (h : walk.turn r = .moved walk' r' events) :
    Quiet walk r walk' r' := by
  obtain ⟨_, _, _, ht, hq⟩ | ⟨_, _, _, _, ht, -⟩ :=
    turn_quiet (tasks_ne_nil (by rw [h]; intro hn; cases hn)) <;> cases h.symm.trans ht
  exact hq

theorem quiet_of_ask {n : Name} {callback : κ} {claimed : Bool}
    (h : walk.turn r = .ask n callback claimed rest) (outcome : Except Fault Unit) :
    Quiet walk r (rest.settle n claimed outcome) r := by
  obtain ⟨_, _, _, ht, -⟩ | ⟨_, _, _, _, ht, -, hq⟩ :=
    turn_quiet (tasks_ne_nil (by rw [h]; intro hn; cases hn)) <;> cases h.symm.trans ht
  exact hq outcome

theorem eq_of_ask {n : Name} {callback : κ} {claimed : Bool}
    (h : walk.turn r = .ask n callback claimed rest) :
    walk = { rest with tasks := .dispose n (some callback) claimed :: rest.tasks } := by
  obtain ⟨tasks, visited, report⟩ := walk
  cases tasks with
  | nil => cases h
  | cons task tasks =>
    cases task with
    | start | contained | forget | sweep => cases h
    | dispose k callback' claimed' =>
      cases callback' <;> cases h
      rfl
    | enter k =>
      simp only [turn] at h
      split at h <;> cases h

theorem tasks_of_ask {n : Name} {callback : κ} {claimed : Bool}
    (h : walk.turn r = .ask n callback claimed rest) :
    walk.tasks = .dispose n (some callback) claimed :: rest.tasks := by
  rw [eq_of_ask h]

end Walk

namespace Machine

def walks (m : Machine σ ρ κ) : List (Walk κ) :=
  (match m.activity with
    | .tearDown walk => [walk]
    | .code _ _ => []) ++ m.duties.filterMap Duty.walk?

theorem walks_answer {client : Client σ ρ κ} {m m' : Machine σ ρ κ} {r : Registry κ}
    {events : List Event} {a : Answer} (h : m.answer client r events a = some m') :
    m'.walks = (m.callers.map (·.duty)).filterMap Duty.walk? := by
  obtain ⟨r₀, memory, activity, callers⟩ := m
  cases callers with
  | nil => cases h
  | cons caller callers =>
    cases h
    rfl

variable [Language ρ κ] {client : Client σ ρ κ} {m m' : Machine σ ρ κ}

theorem mem_walks_of_turned {walk : Walk κ} (hd : m.deed = .turned walk) : walk ∈ m.walks := by
  obtain ⟨r, memory, activity, callers⟩ := m
  cases activity with
  | tearDown =>
    cases hd
    exact List.mem_cons_self
  | code duty program => cases program <;> cases duty <;> cases hd

theorem walks_of_asked {op : Op κ} (hd : m.deed = .asked op) :
    m.walks = m.duties.filterMap Duty.walk? := by
  obtain ⟨r, memory, activity, callers⟩ := m
  cases activity with
  | tearDown => cases hd
  | code duty program => rfl

theorem activity_of_disposed {n : Name} {claimed : Bool} {rest : Walk κ}
    (hd : m.deed = .disposed n claimed rest) (h : m.step client = some m') :
    ∃ outcome, m'.activity = .tearDown (rest.settle n claimed outcome) := by
  obtain ⟨r, memory, activity, callers⟩ := m
  cases activity with
  | tearDown => cases hd
  | code duty program =>
    cases program with
    | call | access => cases duty <;> cases hd
    | done result =>
      cases duty <;> cases hd
      cases h
      exact ⟨result, rfl⟩
    | panic p =>
      cases duty <;> cases hd
      cases h
      exact ⟨_, rfl⟩

theorem strides_call {r : Registry κ} {memory : σ} {duty : Duty κ} {request : ρ}
    {next : Answer → Program σ ρ duty.Result} {callers : List (Caller σ ρ κ)}
    (h : (Machine.mk r memory (.code duty (.call request next)) callers).step client = some m') :
    Strides r (.asked (Language.meaning r.links request))
      ((duty :: callers.map (·.duty)).filterMap Duty.walk?) m'.walks := by
  simp only [step] at h
  have ho := r.begins (Language.meaning r.links request)
  generalize r.start (Language.meaning r.links request) = o at h ho
  generalize Language.meaning r.links request = op at ho
  cases ho with
  | replied =>
    rw [begin] at h
    rw [walks_answer h]
    exact .stay fun walk hd => by cases hd
  | construct | expose =>
    cases h
    exact .stay fun walk hd => by cases hd
  | one =>
    cases h
    exact .one
  | all =>
    cases h
    exact .all

theorem strides_turn {r : Registry κ} {memory : σ} {walk : Walk κ}
    {callers : List (Caller σ ρ κ)}
    (h : (Machine.mk r memory (.tearDown walk) callers).step client = some m') :
    Strides r (.turned walk) (walk :: (callers.map (·.duty)).filterMap Duty.walk?) m'.walks := by
  simp only [step] at h
  cases ht : walk.turn r with
  | «over» =>
    rw [ht] at h
    rw [walks_answer h]
    exact .over ht
  | moved walk' r' events =>
    rw [ht] at h
    cases h
    exact .moved ht
  | ask n callback claimed rest =>
    rw [ht] at h
    cases h
    exact .asked ht

theorem strides (h : m.step client = some m') : Strides m.registry m.deed m.walks m'.walks := by
  obtain ⟨r, memory, activity, callers⟩ := m
  cases activity with
  | code duty program =>
    cases program with
    | done result =>
      cases duty with
      | main => cases h
      | construct n ownsWindow | expose n purpose =>
        rw [walks_answer h]
        exact .stay fun walk hd => by cases hd
      | dispose n claimed rest =>
        cases h
        exact .settled result
    | panic p =>
      cases duty with
      | main => cases h
      | construct n ownsWindow | expose n purpose =>
        rw [walks_answer h]
        exact .stay fun walk hd => by cases hd
      | dispose n claimed rest =>
        cases h
        exact .settled (.error (.raised ("destroy callback panicked: " ++ p.text)))
    | access change next =>
      cases h
      have hd : (Machine.mk r memory (.code duty (.access change next)) callers).deed = .idle := by
        cases duty <;> rfl
      rw [hd]
      exact .stay fun walk hd => by cases hd
    | call request next =>
      rw [deed_call]
      exact strides_call h
  | tearDown walk => exact strides_turn h

end Machine

end ObjectRegistry
