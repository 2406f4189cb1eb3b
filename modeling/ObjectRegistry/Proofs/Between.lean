import ObjectRegistry.Proofs.Walks

namespace ObjectRegistry

variable {σ ρ κ : Type}

/-- No destroy callback calls the registry. -/
def Client.Discreet (client : Client σ ρ κ) : Prop :=
  ∀ callback, (client.disposer callback).Silent

/-- What a client can rely on between teardowns, and what holds at each task of a teardown for it
to be so. -/
structure Reliable (ρ : Type) [Language ρ κ] (P : Registry κ → Prop)
    (T : Walk κ → Registry κ → Prop) : Prop where
  fresh : ∀ settings : Settings, P settings.registry
  asked : ∀ {r} (request : ρ), P r → P (r.start (Language.meaning r.links request)).registry
  after : ∀ {r d}, (∀ op, d ≠ .asked op) → (∀ walk, d ≠ .turned walk) → P r → P (r.after d)
  one : ∀ {r} n, P r → T (.one n) r
  all : ∀ {r} d, P r → T (.all d) r
  quiet : ∀ {w r w' r'}, T w r → w.Quiet r w' r' → T w' r'
  ended : ∀ {w r}, T w r → w.tasks = [] → P r

namespace Machine

variable {P : Registry κ → Prop} {T : Walk κ → Registry κ → Prop}

/-- One teardown is in progress at most, and its callbacks are silent. -/
inductive Between (P : Registry κ → Prop) (T : Walk κ → Registry κ → Prop) :
    Machine σ ρ κ → Prop where
  | works {r : Registry κ} {memory : σ} {duty : Duty κ} {program : Program σ ρ duty.Result}
    {callers : List (Caller σ ρ κ)} (hd : duty.walk? = none)
    (hc : ∀ caller ∈ callers, caller.duty.walk? = none) (hp : P r) :
    Between P T ⟨r, memory, .code duty program, callers⟩
  | tears {r : Registry κ} {memory : σ} {w : Walk κ} {callers : List (Caller σ ρ κ)}
    (hc : ∀ caller ∈ callers, caller.duty.walk? = none) (ht : T w r) :
    Between P T ⟨r, memory, .tearDown w, callers⟩
  | waits {r : Registry κ} {memory : σ} {n : Name} {claimed : Bool} {rest : Walk κ}
    {program : Program σ ρ (Except Fault Unit)} {callers : List (Caller σ ρ κ)}
    (hc : ∀ caller ∈ callers, caller.duty.walk? = none) (hs : program.Silent)
    (ht : ∀ outcome, T (rest.settle n claimed outcome) r) :
    Between P T ⟨r, memory, .code (.dispose n claimed rest) program, callers⟩

theorem between_answer {client : Client σ ρ κ} {m m' : Machine σ ρ κ} {r : Registry κ}
    {events : List Event} {a : Answer} (hc : ∀ caller ∈ m.callers, caller.duty.walk? = none)
    (hp : P r) (h : m.answer client r events a = some m') : Between P T m' := by
  obtain ⟨r₀, memory, activity, callers⟩ := m
  cases callers with
  | nil => cases h
  | cons caller callers =>
    cases h
    obtain ⟨hd, hc⟩ := List.forall_mem_cons.1 hc
    exact .works hd hc hp

variable [Language ρ κ] {client : Client σ ρ κ} {m m' : Machine σ ρ κ}

theorem between_finish (hr : Reliable ρ P T) {duty : Duty κ} {result : duty.Result}
    (hd : duty.walk? = none) (hc : ∀ caller ∈ m.callers, caller.duty.walk? = none)
    (hp : P m.registry) (h : m.finish client duty result = some m') : Between P T m' := by
  cases duty with
  | main => cases h
  | dispose => cases hd
  | construct n ownsWindow =>
    have hp := hr.after (d := .built n ownsWindow result) nofun nofun hp
    exact between_answer hc hp h
  | expose n purpose =>
    have hp := hr.after (d := .showed n purpose result) nofun nofun hp
    exact between_answer hc hp h

theorem between_unwind (hr : Reliable ρ P T) {duty : Duty κ} {p : Panic}
    (hd : duty.walk? = none) (hc : ∀ caller ∈ m.callers, caller.duty.walk? = none)
    (hp : P m.registry) (h : m.unwind client p duty = some m') : Between P T m' := by
  cases duty with
  | main => cases h
  | dispose => cases hd
  | construct n ownsWindow =>
    have hp := hr.after (d := .brokeOff n ownsWindow p) nofun nofun hp
    exact between_answer hc hp h
  | expose n purpose => exact between_answer hc hp h

theorem between_call (hr : Reliable ρ P T) {r : Registry κ} {memory : σ} {duty : Duty κ}
    {request : ρ} {next : Answer → Program σ ρ duty.Result} {callers : List (Caller σ ρ κ)}
    (hd : duty.walk? = none) (hc : ∀ caller ∈ callers, caller.duty.walk? = none) (hp : P r)
    (h : (Machine.mk r memory (.code duty (.call request next)) callers).step client = some m') :
    Between P T m' := by
  have hp := hr.asked request hp
  have hc : ∀ caller ∈ ⟨duty, next⟩ :: callers, caller.duty.walk? = none :=
    List.forall_mem_cons.2 ⟨hd, hc⟩
  simp only [step] at h
  have ho := r.begins (Language.meaning r.links request)
  generalize r.start (Language.meaning r.links request) = o at h ho hp
  generalize Language.meaning r.links request = op at ho
  cases ho with
  | @replied _ a r' events =>
    rw [begin] at h
    have hp : P r' := hp
    exact between_answer hc hp h
  | construct | expose =>
    cases h
    exact .works rfl hc hp
  | @one n =>
    cases h
    exact .tears hc (hr.one n hp)
  | all =>
    cases h
    exact .tears hc (hr.all _ hp)

theorem between_turn (hr : Reliable ρ P T) (hs : client.Discreet) {r : Registry κ} {memory : σ}
    {w : Walk κ} {callers : List (Caller σ ρ κ)}
    (hc : ∀ caller ∈ callers, caller.duty.walk? = none) (ht : T w r)
    (h : (Machine.mk r memory (.tearDown w) callers).step client = some m') : Between P T m' := by
  simp only [step] at h
  cases hturn : w.turn r with
  | «over» =>
    rw [hturn] at h
    exact between_answer hc (hr.ended ht (Walk.tasks_of_over hturn)) h
  | moved w' r' events =>
    rw [hturn] at h
    cases h
    exact .tears hc (hr.quiet ht (Walk.quiet_of_moved hturn))
  | ask n callback claimed rest =>
    rw [hturn] at h
    cases h
    exact .waits hc (hs callback) fun outcome => hr.quiet ht (Walk.quiet_of_ask hturn outcome)

theorem between_step (hr : Reliable ρ P T) (hs : client.Discreet) (hm : Between P T m)
    (h : m.step client = some m') : Between P T m' := by
  cases hm with
  | @works r memory duty program callers hd hc hp =>
    cases program with
    | access change next =>
      cases h
      exact .works hd hc hp
    | done result => exact between_finish hr hd hc hp h
    | panic p => exact between_unwind hr hd hc hp h
    | call request next => exact between_call hr hd hc hp h
  | @tears r memory w callers hc ht => exact between_turn hr hs hc ht h
  | @waits r memory n claimed rest program callers hc hsilent ht =>
    cases program with
    | call => cases hsilent
    | access change next =>
      cases h
      exact .waits hc (hsilent memory) ht
    | done result =>
      cases h
      exact .tears hc (ht result)
    | panic p =>
      cases h
      exact .tears hc (ht _)

theorem Reachable.relies (hr : Reliable ρ P T) (hs : client.Discreet) (hm : m.Reachable client)
    {op : Op κ} (hd : m.deed = .asked op) : P m.registry := by
  -- A call is seen only between teardowns, since their callbacks make none.
  have hb : Between P T m := by
    refine hm.keeps (fun settings memory main => ?_) fun m m' hm h => between_step hr hs hm h
    exact .works rfl (List.forall_mem_nil _) (hr.fresh settings)
  cases hb with
  | works _ _ hp => exact hp
  | tears => cases hd
  | @waits r memory n claimed rest program callers _ hsilent _ =>
    cases program with
    | call => cases hsilent
    | _ => cases hd

end Machine

end ObjectRegistry
