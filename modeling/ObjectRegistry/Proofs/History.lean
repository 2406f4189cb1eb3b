import ObjectRegistry.Machine
import ObjectRegistry.Settings

namespace ObjectRegistry

variable {σ ρ κ : Type}

/-- What one step of a machine does. -/
inductive Deed (κ : Type) where
  | idle
  | asked (op : Op κ)
  | built (n : Name) (ownsWindow : Bool) (outcome : Except Fault Handle)
  | brokeOff (n : Name) (ownsWindow : Bool) (p : Panic)
  | showed (n : Name) (purpose : Purpose) (h : Handle)
  | withheld (n : Name) (purpose : Purpose) (p : Panic)
  | disposed (n : Name) (claimed : Bool) (rest : Walk κ)
  | turned (walk : Walk κ)

def Outset.registry : Outset κ → Registry κ
  | .reply _ r _ | .construct _ _ _ r | .expose _ _ _ r | .tearDown _ r _ => r

def Outset.reply? : Outset κ → Option Answer
  | .reply a _ _ => some a
  | _ => none

def Outset.launch? : Outset κ → Option (Duty κ × κ)
  | .construct n ownsWindow factory _ => some (.construct n ownsWindow, factory)
  | .expose n purpose early _ => some (.expose n purpose, early)
  | _ => none

def Turn.registry (r : Registry κ) : Turn κ → Registry κ
  | .moved _ r _ => r
  | .over | .ask .. => r

namespace Registry

def after (r : Registry κ) : Deed κ → Registry κ
  | .asked op => (r.start op).registry
  | .built n ownsWindow outcome => (r.complete n ownsWindow outcome).2.1
  | .brokeOff n ownsWindow _ => r.abandon n ownsWindow
  | .showed n _ h => r.expose n h
  | .turned walk => (walk.turn r).registry r
  | .idle | .withheld .. | .disposed .. => r

def reply? (r : Registry κ) : Deed κ → Option Answer
  | .asked op => (r.start op).reply?
  | .built n ownsWindow outcome => some (r.complete n ownsWindow outcome).1
  | .brokeOff _ _ p | .withheld _ _ p => some (.panicked p)
  | .showed _ purpose h => some (purpose.answer h)
  | .turned walk =>
    match walk.turn r with
    | .over => some (.report walk.report)
    | _ => none
  | .idle | .disposed .. => none

def launch? (r : Registry κ) : Deed κ → Option (Duty κ × κ)
  | .asked op => (r.start op).launch?
  | .turned walk =>
    match walk.turn r with
    | .ask n callback claimed rest => some (.dispose n claimed rest, callback)
    | _ => none
  | _ => none

end Registry

namespace Deed

def ends? : Deed κ → Option (Duty κ)
  | built n ownsWindow _ | brokeOff n ownsWindow _ => some (.construct n ownsWindow)
  | showed n purpose _ | withheld n purpose _ => some (.expose n purpose)
  | disposed n claimed rest => some (.dispose n claimed rest)
  | idle | asked _ | turned _ => none

theorem ends?_construct {d : Deed κ} {n : Name} {ownsWindow : Bool}
    (h : d.ends? = some (.construct n ownsWindow)) :
    (∃ outcome, d = .built n ownsWindow outcome) ∨ ∃ p, d = .brokeOff n ownsWindow p := by
  cases d with
  | built k owns outcome =>
    cases h
    exact .inl ⟨outcome, rfl⟩
  | brokeOff k owns p =>
    cases h
    exact .inr ⟨p, rfl⟩
  | _ => cases h

theorem ends?_expose {d : Deed κ} {n : Name} {purpose : Purpose}
    (h : d.ends? = some (.expose n purpose)) :
    (∃ object, d = .showed n purpose object) ∨ ∃ p, d = .withheld n purpose p := by
  cases d with
  | showed k reason object =>
    cases h
    exact .inl ⟨object, rfl⟩
  | withheld k reason p =>
    cases h
    exact .inr ⟨p, rfl⟩
  | _ => cases h

theorem ends?_dispose {d : Deed κ} {n : Name} {claimed : Bool} {rest : Walk κ}
    (h : d.ends? = some (.dispose n claimed rest)) : d = .disposed n claimed rest := by
  cases d with
  | disposed =>
    cases h
    rfl
  | _ => cases h

end Deed

namespace Registry

variable {n : Name}

theorem reply?_of_ends_construct {ownsWindow : Bool} (r : Registry κ) (d : Deed κ)
    (h : d.ends? = some (.construct n ownsWindow)) : (r.reply? d).isSome := by
  obtain ⟨outcome, rfl⟩ | ⟨p, rfl⟩ := Deed.ends?_construct h <;> rfl

theorem reply?_of_ends_expose {purpose : Purpose} (r : Registry κ) (d : Deed κ)
    (h : d.ends? = some (.expose n purpose)) : (r.reply? d).isSome := by
  obtain ⟨object, rfl⟩ | ⟨p, rfl⟩ := Deed.ends?_expose h <;> rfl

end Registry

def Duty.making? : Duty κ → Option Name
  | .construct n _ => some n
  | _ => none

namespace Machine

/-- The programs in progress, innermost first: the one that runs and those that wait. -/
def duties (m : Machine σ ρ κ) : List (Duty κ) :=
  (match m.activity with
    | .code duty _ => [duty]
    | .tearDown _ => []) ++ m.callers.map (·.duty)

/-- The names whose factories are in progress, innermost first. -/
def making (m : Machine σ ρ κ) : List Name := m.duties.filterMap Duty.making?

variable [Language ρ κ]

def deed (m : Machine σ ρ κ) : Deed κ :=
  match m.activity with
  | .code (.construct n ownsWindow) (.done outcome) => .built n ownsWindow outcome
  | .code (.construct n ownsWindow) (.panic p) => .brokeOff n ownsWindow p
  | .code (.expose n purpose) (.done h) => .showed n purpose h
  | .code (.expose n purpose) (.panic p) => .withheld n purpose p
  | .code (.dispose n claimed rest) (.done _) | .code (.dispose n claimed rest) (.panic _) =>
    .disposed n claimed rest
  | .code _ (.call request _) => .asked (Language.meaning m.registry.links request)
  | .code .main (.done _) | .code .main (.panic _) | .code _ (.access ..) => .idle
  | .tearDown walk => .turned walk

/-- The answer that the next step gives to the program with `depth` programs from it on down. -/
def gives (client : Client σ ρ κ) (m : Machine σ ρ κ) (depth : Nat) : Option Answer :=
  match m.step client with
  | some m' => if m'.duties.length = depth then m.registry.reply? m.deed else none
  | none => none

/-- The call that `m` is about to make is answered by `a` with the step that comes after `k`
others. -/
def AnswersAfter (client : Client σ ρ κ) (m : Machine σ ρ κ) (k : Nat) (a : Answer) : Prop :=
  (run client k m).gives client m.duties.length = some a ∧
    ∀ j < k, (run client j m).gives client m.duties.length = none

def Answers (client : Client σ ρ κ) (m : Machine σ ρ κ) (a : Answer) : Prop :=
  ∃ k, (run client k m).gives client m.duties.length = some a ∧
    ∀ j < k, (run client j m).gives client m.duties.length = none

def Returns (client : Client σ ρ κ) (m : Machine σ ρ κ) (a : Answer) (r : Registry κ) : Prop :=
  ∃ k, m.AnswersAfter client k a ∧ (run client (k + 1) m).registry = r

def deeds (client : Client σ ρ κ) : Nat → Machine σ ρ κ → List (Deed κ)
  | 0, _ => []
  | bound + 1, m =>
    match m.step client with
    | none => []
    | some m' => m.deed :: deeds client bound m'

def launches (client : Client σ ρ κ) : Nat → Machine σ ρ κ → List (Duty κ × κ)
  | 0, _ => []
  | bound + 1, m =>
    match m.step client with
    | none => []
    | some m' => (m.registry.launch? m.deed).toList ++ launches client bound m'

/-- The machines that a main program comes through when it starts on an empty registry. -/
def Reachable (client : Client σ ρ κ) (m : Machine σ ρ κ) : Prop :=
  ∃ (settings : Settings) (memory : σ) (main : Program σ ρ Unit) (k : Nat),
    m = run client k (.ofMain settings.registry memory main)

variable {client : Client σ ρ κ} {m m' : Machine σ ρ κ}

section Duties

omit [Language ρ κ]

theorem answer_inv {r : Registry κ} {events : List Event} {a : Answer}
    (h : m.answer client r events a = some m') :
    m'.registry = r ∧ m'.duties = m.callers.map (·.duty) := by
  obtain ⟨r₀, memory, activity, callers⟩ := m
  cases callers with
  | nil => cases h
  | cons caller callers =>
    cases h
    exact ⟨rfl, rfl⟩

end Duties

theorem deed_call {r : Registry κ} {memory : σ} {duty : Duty κ} {request : ρ}
    {next : Answer → Program σ ρ duty.Result} {callers : List (Caller σ ρ κ)} :
    (Machine.mk r memory (.code duty (.call request next)) callers).deed =
      .asked (Language.meaning r.links request) := by
  cases duty <;> rfl

theorem call_of_asked {op : Op κ} (h : m.deed = .asked op) :
    ∃ duty request next, m.activity = .code duty (.call request next) ∧
      Language.meaning m.registry.links request = op := by
  obtain ⟨r, memory, activity, callers⟩ := m
  cases activity with
  | tearDown walk => cases h
  | code duty program =>
    cases program with
    | done result => cases duty <;> cases h
    | panic p => cases duty <;> cases h
    | access change next => cases duty <;> cases h
    | call request next =>
      rw [deed_call] at h
      exact ⟨duty, request, next, rfl, Deed.asked.inj h⟩

/-- A step leaves the registry that its deed leaves. It ends the duty that the deed ends and takes
up the one that the deed starts. -/
theorem step_inv (h : m.step client = some m') :
    m'.registry = m.registry.after m.deed ∧
      m.deed.ends?.toList ++ m'.duties =
        ((m.registry.launch? m.deed).map (·.1)).toList ++ m.duties := by
  obtain ⟨r, memory, activity, callers⟩ := m
  cases activity with
  | code duty program =>
    cases program with
    | done result =>
      cases duty with
      | main => cases h
      | construct n ownsWindow | expose n purpose =>
        exact ⟨(answer_inv h).1, congrArg _ (answer_inv h).2⟩
      | dispose n claimed rest =>
        cases h
        exact ⟨rfl, rfl⟩
    | panic p =>
      cases duty with
      | main => cases h
      | construct n ownsWindow | expose n purpose =>
        exact ⟨(answer_inv h).1, congrArg _ (answer_inv h).2⟩
      | dispose n claimed rest =>
        cases h
        exact ⟨rfl, rfl⟩
    | access change next =>
      cases h
      cases duty <;> exact ⟨rfl, rfl⟩
    | call request next =>
      simp only [step] at h
      rw [deed_call, Registry.after, Registry.launch?]
      cases hs : r.start (Language.meaning r.links request) with
      | reply a r' events =>
        rw [hs, begin] at h
        exact answer_inv h
      | construct n ownsWindow factory r' | expose n purpose early r' | tearDown walk r' events =>
        rw [hs] at h
        cases h
        exact ⟨rfl, rfl⟩
  | tearDown walk =>
    simp only [step] at h
    change m'.registry = (walk.turn r).registry r ∧
      m'.duties = ((r.launch? (.turned walk)).map (·.1)).toList ++ callers.map (·.duty)
    rw [Registry.launch?]
    cases ht : walk.turn r with
    | «over» =>
      rw [ht] at h
      exact answer_inv h
    | moved walk' r' events | ask n callback claimed rest =>
      rw [ht] at h
      cases h
      exact ⟨rfl, rfl⟩

theorem registry_step (h : m.step client = some m') :
    m'.registry = m.registry.after m.deed :=
  (step_inv h).1

theorem duties_step (h : m.step client = some m') :
    m.deed.ends?.toList ++ m'.duties =
      ((m.registry.launch? m.deed).map (·.1)).toList ++ m.duties :=
  (step_inv h).2

theorem launch?_of_ends {duty : Duty κ} (r : Registry κ) {d : Deed κ}
    (h : d.ends? = some duty) : r.launch? d = none := by
  cases d <;> first | rfl | cases h

theorem duties_of_ends {duty : Duty κ} (h : m.step client = some m')
    (hd : m.deed.ends? = some duty) : m.duties = duty :: m'.duties := by
  have hs := duties_step h
  rw [hd, launch?_of_ends m.registry hd] at hs
  exact hs.symm

theorem duties_of_launch {duty : Duty κ} {callback : κ} (h : m.step client = some m')
    (hl : m.registry.launch? m.deed = some (duty, callback)) : m'.duties = duty :: m.duties := by
  have he : m.deed.ends? = none := by
    cases hd : m.deed.ends? with
    | none => rfl
    | some d => rw [launch?_of_ends m.registry hd] at hl; cases hl
  have hs := duties_step h
  rw [he, hl] at hs
  exact hs

theorem duties_of_stay (h : m.step client = some m') (he : m.deed.ends? = none)
    (hl : m.registry.launch? m.deed = none) : m'.duties = m.duties := by
  have hs := duties_step h
  rw [he, hl] at hs
  exact hs

theorem duties_inv {duty : Duty κ} (h : m.step client = some m') (hmem : duty ∈ m'.duties) :
    duty ∈ m.duties ∨ ∃ callback, m.registry.launch? m.deed = some (duty, callback) := by
  have hmem := List.mem_append_right m.deed.ends?.toList hmem
  rw [duties_step h] at hmem
  obtain hl | hmem := List.mem_append.1 hmem
  · obtain ⟨⟨duty, callback⟩, hlaunch, rfl⟩ :=
      Option.map_eq_some_iff.1 (Option.mem_toList.1 hl)
    exact .inr ⟨callback, hlaunch⟩
  · exact .inl hmem

theorem making_step (h : m.step client = some m') :
    m.deed.ends?.toList.filterMap Duty.making? ++ m'.making =
      ((m.registry.launch? m.deed).map (·.1)).toList.filterMap Duty.making? ++ m.making := by
  have hd := congrArg (List.filterMap Duty.making?) (duties_step h)
  rwa [List.filterMap_append, List.filterMap_append] at hd

theorem step_of_asked (client : Client σ ρ κ) {op : Op κ} (h : m.deed = .asked op) :
    ∃ m', m.step client = some m' := by
  obtain ⟨duty, request, next, ha, -⟩ := call_of_asked h
  simp only [step, ha]
  cases m.registry.start (Language.meaning m.registry.links request) <;> exact ⟨_, rfl⟩

@[simp] theorem run_zero : run client 0 m = m := rfl

theorem run_succ_of_step (h : m.step client = some m') (k : Nat) :
    run client (k + 1) m = run client k m' := by rw [run, h]

theorem run_of_stop (h : m.step client = none) (k : Nat) : run client k m = m := by
  cases k with
  | zero => rfl
  | succ k => rw [run, h]

theorem run_add (j k : Nat) (m : Machine σ ρ κ) :
    run client (j + k) m = run client k (run client j m) := by
  induction j generalizing m with
  | zero => rw [Nat.zero_add, run_zero]
  | succ j ih =>
    cases h : m.step client with
    | none => rw [run_of_stop h, run_of_stop h, run_of_stop h]
    | some m' =>
      rw [Nat.add_right_comm, run_succ_of_step h, run_succ_of_step h, ih]

theorem run_succ (k : Nat) (m : Machine σ ρ κ) :
    run client (k + 1) m = ((run client k m).step client).getD (run client k m) := by
  rw [run_add]
  cases h : (run client k m).step client with
  | none => exact run_of_stop h 1
  | some m' => exact run_succ_of_step h 0

theorem step_of_le {j k : Nat} (hjk : j ≤ k) (h : (run client k m).step client = some m') :
    ∃ m', (run client j m).step client = some m' := by
  obtain ⟨d, rfl⟩ := Nat.exists_eq_add_of_le hjk
  cases hs : (run client j m).step client with
  | none =>
    rw [run_add, run_of_stop hs, hs] at h
    cases h
  | some m' => exact ⟨m', rfl⟩

theorem deeds_succ (h : m.step client = some m') (k : Nat) :
    deeds client (k + 1) m = m.deed :: deeds client k m' := by
  simp only [deeds, h]

theorem deeds_of_stop (h : m.step client = none) (k : Nat) : deeds client k m = [] := by
  cases k with
  | zero => rfl
  | succ k => simp only [deeds, h]

theorem deeds_add (j k : Nat) (m : Machine σ ρ κ) :
    deeds client (j + k) m = deeds client j m ++ deeds client k (run client j m) := by
  induction j generalizing m with
  | zero => rw [Nat.zero_add, run_zero, deeds, List.nil_append]
  | succ j ih =>
    cases h : m.step client with
    | none =>
      rw [deeds_of_stop h, deeds_of_stop h, run_of_stop h, deeds_of_stop h, List.nil_append]
    | some m' =>
      rw [Nat.add_right_comm, deeds_succ h, deeds_succ h, run_succ_of_step h, ih, List.cons_append]

theorem deed_mem_deeds {j k : Nat} (hj : j < k) (h : (run client j m).step client = some m') :
    (run client j m).deed ∈ deeds client k m := by
  induction j generalizing k m with
  | zero =>
    obtain ⟨k, rfl⟩ := Nat.exists_eq_succ_of_ne_zero (Nat.ne_of_gt hj)
    rw [run_zero] at h ⊢
    rw [deeds_succ h]
    exact List.mem_cons_self
  | succ j ih =>
    obtain ⟨k, rfl⟩ := Nat.exists_eq_succ_of_ne_zero (Nat.ne_zero_of_lt hj)
    cases hs : m.step client with
    | none =>
      rw [run_of_stop hs, hs] at h
      cases h
    | some m₁ =>
      rw [run_succ_of_step hs] at h ⊢
      rw [deeds_succ hs]
      exact List.mem_cons_of_mem _ (ih (Nat.lt_of_succ_lt_succ hj) h)

theorem mem_deeds_of_le {d : Deed κ} {j k : Nat} (hjk : j ≤ k) (hd : d ∈ deeds client j m) :
    d ∈ deeds client k m := by
  induction j generalizing k m with
  | zero => exact absurd hd List.not_mem_nil
  | succ j ih =>
    obtain ⟨k, rfl⟩ := Nat.exists_eq_succ_of_ne_zero (Nat.ne_zero_of_lt hjk)
    cases hs : m.step client with
    | none =>
      rw [deeds_of_stop hs] at hd
      exact absurd hd List.not_mem_nil
    | some m' =>
      rw [deeds_succ hs, List.mem_cons] at hd ⊢
      exact hd.imp_right (ih (Nat.le_of_succ_le_succ hjk))

theorem launches_succ (h : m.step client = some m') (k : Nat) :
    launches client (k + 1) m = (m.registry.launch? m.deed).toList ++ launches client k m' := by
  simp only [launches, h]

theorem run_keeps {P : Machine σ ρ κ → Prop} {k : Nat} (h : P m)
    (hs : ∀ j < k, ∀ m', P (run client j m) → (run client j m).step client = some m' → P m') :
    P (run client k m) := by
  induction k with
  | zero => exact h
  | succ k ih =>
    have hk := ih fun j hj => hs j (Nat.lt_succ_of_lt hj)
    rw [run_succ]
    cases hn : (run client k m).step client with
    | none => exact hk
    | some m' => exact hs k (Nat.lt_succ_self k) m' hk hn

theorem Reachable.keeps {P : Machine σ ρ κ → Prop} (h : m.Reachable client)
    (h₀ : ∀ (settings : Settings) memory main, P (.ofMain settings.registry memory main))
    (hs : ∀ m m', P m → m.step client = some m' → P m') : P m := by
  obtain ⟨settings, memory, main, k, rfl⟩ := h
  exact run_keeps (h₀ settings memory main) fun j _ m' => hs _ m'

theorem Reachable.run (h : m.Reachable client) (k : Nat) : (run client k m).Reachable client := by
  obtain ⟨settings, memory, main, j, rfl⟩ := h
  exact ⟨settings, memory, main, j + k, (run_add j k _).symm⟩

theorem AnswersAfter.unique {j k : Nat} {a b : Answer} (ha : m.AnswersAfter client j a)
    (hb : m.AnswersAfter client k b) : j = k ∧ a = b := by
  obtain ⟨hj, hj'⟩ := ha
  obtain ⟨hk, hk'⟩ := hb
  obtain hlt | rfl | hlt := Nat.lt_trichotomy j k
  · rw [hk' j hlt] at hj
    cases hj
  · exact ⟨rfl, Option.some.inj (hj.symm.trans hk)⟩
  · rw [hj' k hlt] at hk
    cases hk

theorem Answers.unique {a b : Answer} (ha : m.Answers client a) (hb : m.Answers client b) :
    a = b := by
  obtain ⟨j, ha⟩ := ha
  obtain ⟨k, hb⟩ := hb
  exact (AnswersAfter.unique ha hb).2

theorem Returns.answers {a : Answer} {r : Registry κ} (h : m.Returns client a r) :
    m.Answers client a := by
  obtain ⟨k, hk, -⟩ := h
  exact ⟨k, hk⟩

theorem answersAfter_of_start {op : Op κ} {a : Answer} {r : Registry κ} {events : List Event}
    (hd : m.deed = .asked op) (hs : m.registry.start op = .reply a r events) :
    m.AnswersAfter client 0 a := by
  obtain ⟨m', h⟩ := step_of_asked client hd
  have he : m.deed.ends? = none := by rw [hd, Deed.ends?]
  have hl : m.registry.launch? m.deed = none := by
    rw [hd, Registry.launch?, hs]
    rfl
  refine ⟨?_, fun j hj => absurd hj (Nat.not_lt_zero j)⟩
  rw [run_zero, gives, h]
  simp only [duties_of_stay h he hl, ↓reduceIte, hd, Registry.reply?, hs, Outset.reply?]

theorem answers_of_start {op : Op κ} {a : Answer} {r : Registry κ} {events : List Event}
    (hd : m.deed = .asked op) (hs : m.registry.start op = .reply a r events) :
    m.Answers client a :=
  ⟨0, answersAfter_of_start hd hs⟩

end Machine

end ObjectRegistry
