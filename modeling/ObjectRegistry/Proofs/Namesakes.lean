import ObjectRegistry.Proofs.Calls

namespace ObjectRegistry

variable {σ ρ κ : Type}

/-- Two requests that differ in their names at most, each of which stands for the same as the one
in its place. -/
inductive Request.Namesake (l : Links) : Request κ → Request κ → Prop where
  | find {a b : Name} (h : l.canonical a = l.canonical b) : Namesake l (.find a) (.find b)
  | findAs {a b : Name} (h : l.canonical a = l.canonical b) (kind : Kind) :
    Namesake l (.findAs a kind) (.findAs b kind)
  | obtain {a b : Name} (h : l.canonical a = l.canonical b) (factory : κ) :
    Namesake l (.obtain a factory) (.obtain b factory)
  | install {a b : Name} (h : l.canonical a = l.canonical b) (object : Handle) :
    Namesake l (.install a object) (.install b object)
  | defer {a b : Name} (h : l.canonical a = l.canonical b) (early : κ) :
    Namesake l (.defer a early) (.defer b early)
  | drop {a b : Name} (h : l.canonical a = l.canonical b) : Namesake l (.drop a) (.drop b)
  | holds {a b : Name} (h : l.canonical a = l.canonical b) : Namesake l (.holds a) (.holds b)
  | track {a b : Name} (h : l.canonical a = l.canonical b) (tracked : Bool) :
    Namesake l (.track a tracked) (.track b tracked)
  | isUnderway {a b : Name} (h : l.canonical a = l.canonical b) :
    Namesake l (.isUnderway a) (.isUnderway b)
  | addDependency {a b c d : Name} (h : l.canonical a = l.canonical b)
    (h' : l.canonical c = l.canonical d) : Namesake l (.addDependency a c) (.addDependency b d)
  | addContainment {a b c d : Name} (h : l.canonical a = l.canonical b)
    (h' : l.canonical c = l.canonical d) : Namesake l (.addContainment a c) (.addContainment b d)
  | dependentsOf {a b : Name} (h : l.canonical a = l.canonical b) :
    Namesake l (.dependentsOf a) (.dependentsOf b)
  | dependenciesOf {a b : Name} (h : l.canonical a = l.canonical b) :
    Namesake l (.dependenciesOf a) (.dependenciesOf b)
  | isTransitivelyDependent {a b c d : Name} (h : l.canonical a = l.canonical b)
    (h' : l.canonical c = l.canonical d) :
    Namesake l (.isTransitivelyDependent a c) (.isTransitivelyDependent b d)
  | onDestroy {a b : Name} (h : l.canonical a = l.canonical b) (callback : κ) :
    Namesake l (.onDestroy a callback) (.onDestroy b callback)
  | destroy {a b : Name} (h : l.canonical a = l.canonical b) :
    Namesake l (.destroy a) (.destroy b)

/-- Two outsets that may differ in what is told of the name that was given, and in nothing else. -/
inductive Outset.Alike : Outset κ → Outset κ → Prop where
  | same (o : Outset κ) : Alike o o
  | reply (a : Answer) (r : Registry κ) (events events' : List Event) :
    Alike (.reply a r events) (.reply a r events')
  | expose (n given given' : Name) (kind : Kind) (early : κ) (r : Registry κ) :
    Alike (.expose n (.findAs given kind) early r) (.expose n (.findAs given' kind) early r)

theorem Outset.Alike.symm {o o' : Outset κ} (h : o.Alike o') : o'.Alike o := by
  cases h with
  | same o => exact .same o
  | reply a r events events' => exact .reply a r events' events
  | expose n given given' kind early r => exact .expose n given' given kind early r

namespace Registry

theorem find_alike (r : Registry κ) (n given given' : Name) (kind : Kind) :
    (r.find n (.findAs given kind)).Alike (r.find n (.findAs given' kind)) := by
  cases hf : r.store.finished[n]? with
  | some h =>
    simp only [find, hf]
    exact .reply _ r _ _
  | none =>
    simp only [find, findEarly, hf]
    split
    · cases he : r.store.early[n]? with
      | some h => exact .reply _ r _ _
      | none =>
        cases hp : r.store.pending[n]? with
        | some early => exact .expose n given given' kind early _
        | none => exact .same _
    · exact .same _

theorem start_alike {r : Registry κ} {request request' : Request κ}
    (h : request.Namesake r.links request') :
    (r.start (request.resolve r.links)).Alike (r.start (request'.resolve r.links)) := by
  cases h with
  | @findAs a b h kind =>
    rw [Request.resolve, Request.resolve, h]
    exact r.find_alike _ a b kind
  | @addDependency a b c d h h' =>
    have hstart : r.start ((Request.addDependency a c).resolve r.links) =
        r.start ((Request.addDependency b d).resolve r.links) := by
      simp only [Request.resolve, start, Edges.Op.answer, Edges.Op.update, Edges.Op.events,
        Edges.Op.events.dependencyEvents, Edges.addDependency, h, h']
    rw [hstart]
    exact .same _
  | @isTransitivelyDependent a b c d h h' =>
    have hstart : r.start ((Request.isTransitivelyDependent a c).resolve r.links) =
        r.start ((Request.isTransitivelyDependent b d).resolve r.links) := by
      simp only [Request.resolve, start, Edges.Op.answer, Edges.Op.update, Edges.Op.events,
        Edges.isTransitivelyDependent, h, h']
    rw [hstart]
    exact .same _
  | addContainment h h' =>
    rw [Request.resolve, Request.resolve, h, h']
    exact .same _
  | find h | obtain h | install h | defer h | drop h | holds h | track h | isUnderway h
  | dependentsOf h | dependenciesOf h | onDestroy h | destroy h =>
    rw [Request.resolve, Request.resolve, h]
    exact .same _

end Registry

namespace Machine

variable [Language ρ κ] {client : Client σ ρ κ} {m m' : Machine σ ρ κ}

/-- The run goes on until the program with `depth` programs from it on down is told `a`, and the
registry is then `r`. -/
inductive Settles (client : Client σ ρ κ) (depth : Nat) (a : Answer) (r : Registry κ) :
    Machine σ ρ κ → Prop where
  | now {m m' : Machine σ ρ κ} (h : m.step client = some m') (ha : m.gives client depth = some a)
    (hr : m'.registry = r) : Settles client depth a r m
  | later {m m' : Machine σ ρ κ} (h : m.step client = some m')
    (ha : m.gives client depth = none) (rest : Settles client depth a r m') :
    Settles client depth a r m

theorem settles_iff {depth : Nat} {a : Answer} {r : Registry κ} :
    Settles client depth a r m ↔
      ∃ k, ((run client k m).gives client depth = some a ∧
        ∀ j < k, (run client j m).gives client depth = none) ∧
        (run client (k + 1) m).registry = r := by
  constructor
  · intro h
    induction h with
    | now h ha hr =>
      exact ⟨0, ⟨ha, fun j hj => absurd hj (Nat.not_lt_zero j)⟩,
        by rw [run_succ_of_step h, run_zero, hr]⟩
    | later h ha rest ih =>
      obtain ⟨k, ⟨hk, hbefore⟩, hr⟩ := ih
      refine ⟨k + 1, ⟨by rw [run_succ_of_step h, hk], fun j hj => ?_⟩,
        by rw [run_succ_of_step h, hr]⟩
      cases j with
      | zero => exact ha
      | succ j =>
        rw [run_succ_of_step h]
        exact hbefore j (Nat.lt_of_succ_lt_succ hj)
  · rintro ⟨k, ⟨hk, hbefore⟩, hr⟩
    induction k generalizing m with
    | zero =>
      rw [run_zero] at hk
      obtain ⟨m', h, -, -⟩ := gives_inv hk
      rw [run_succ_of_step h] at hr
      exact .now h hk hr
    | succ k ih =>
      have ha := hbefore 0 (Nat.succ_pos k)
      cases h : m.step client with
      | none =>
        rw [run_of_stop h] at hk
        rw [run_zero, hk] at ha
        cases ha
      | some m' =>
        rw [run_succ_of_step h] at hk hr
        refine .later h ha (ih hr hk fun j hj => ?_)
        have hj := hbefore (j + 1) (Nat.succ_lt_succ hj)
        rwa [run_succ_of_step h] at hj

theorem returns_iff_settles {a : Answer} {r : Registry κ} :
    m.Returns client a r ↔ Settles client m.duties.length a r m := settles_iff.symm

omit [Language ρ κ] in
theorem length_duties_code (r : Registry κ) (memory : σ) (duty : Duty κ)
    (program : Program σ ρ duty.Result) (callers : List (Caller σ ρ κ)) :
    (Machine.mk r memory (.code duty program) callers).duties.length = callers.length + 1 := by
  rw [duties, List.length_append, List.length_map, Nat.add_comm]
  rfl

theorem gives_of_answer {r : Registry κ} {memory : σ} {duty : Duty κ}
    {program : Program σ ρ duty.Result} {callers : List (Caller σ ρ κ)} {a : Answer}
    (h : m.step client = some ⟨r, memory, .code duty program, callers⟩)
    (ha : m.registry.reply? m.deed = some a) : m.gives client (callers.length + 1) = some a := by
  rw [← length_duties_code]
  exact gives_of_reply h ha

section Twins

variable {n given given' : Name} {kind : Kind} {caller : Caller σ ρ κ}
  {callers : List (Caller σ ρ κ)} {x y : Machine σ ρ κ}

/-- The same point of a run on which the early object of `n` is made for `caller`, who has asked
for it by one name or by another. -/
inductive Twins (n given given' : Name) (kind : Kind) (callers : List (Caller σ ρ κ)) :
    Machine σ ρ κ → Machine σ ρ κ → Prop where
  | own (r : Registry κ) (memory : σ) (program : Program σ ρ Handle) :
    Twins n given given' kind callers
      ⟨r, memory, .code (.expose n (.findAs given kind)) program, callers⟩
      ⟨r, memory, .code (.expose n (.findAs given' kind)) program, callers⟩
  | above (r : Registry κ) (memory : σ) (activity : Activity σ ρ κ)
    (upper : List (Caller σ ρ κ)) (resume : Answer → Program σ ρ Handle) :
    Twins n given given' kind callers
      ⟨r, memory, activity, upper ++ ⟨.expose n (.findAs given kind), resume⟩ :: callers⟩
      ⟨r, memory, activity, upper ++ ⟨.expose n (.findAs given' kind), resume⟩ :: callers⟩

omit [Language ρ κ] in
theorem twins_reseats (client : Client σ ρ κ) (resume : Answer → Program σ ρ Handle) :
    Reseats client (Twins n given given' kind callers)
      (⟨.expose n (.findAs given kind), resume⟩ :: callers)
      (⟨.expose n (.findAs given' kind), resume⟩ :: callers) where
  above r memory activity upper := .above r memory activity upper resume
  answered _ _ _ r' _ a := .some (.own r' _ (resume a))

omit [Language ρ κ] in
theorem Twins.deep (h : Twins n given given' kind callers x y) :
    callers.length < x.duties.length ∧ callers.length < y.duties.length := by
  cases h with
  | own r memory program =>
    rw [length_duties_code, length_duties_code]
    exact ⟨Nat.lt_succ_self _, Nat.lt_succ_self _⟩
  | above r memory activity upper resume =>
    simp only [duties, List.length_append, List.length_map, List.length_cons]
    omega

theorem Twins.step (client : Client σ ρ κ)
    (h : Twins n given given' kind (caller :: callers) x y) :
    (∃ a x' y', x.step client = some x' ∧ y.step client = some y' ∧ x'.registry = y'.registry ∧
        x.gives client (callers.length + 1) = some a ∧
        y.gives client (callers.length + 1) = some a) ∨
      Option.Rel (Twins n given given' kind (caller :: callers)) (x.step client)
        (y.step client) := by
  cases h with
  | own r memory program =>
    cases program with
    | done h =>
      exact .inl ⟨_, _, _, rfl, rfl, rfl, gives_of_answer rfl rfl, gives_of_answer rfl rfl⟩
    | panic p =>
      exact .inl ⟨_, _, _, rfl, rfl, rfl, gives_of_answer rfl rfl, gives_of_answer rfl rfl⟩
    | access change next => exact .inr (.some (.own _ _ _))
    | call request next => exact .inr ((twins_reseats client next).begin r memory _ [] _)
  | above r memory activity upper resume =>
    exact .inr ((twins_reseats client resume).step r memory activity upper)

theorem Twins.settles {a : Answer} {r : Registry κ}
    (h : Twins n given given' kind (caller :: callers) x y)
    (hx : Settles client (callers.length + 1) a r x) :
    Settles client (callers.length + 1) a r y := by
  induction hx generalizing y with
  | @now x m' hs ha hr =>
    obtain ⟨c, x', y', hxs, hys, hxy, hxa, hya⟩ | hrel := h.step client
    · cases hs.symm.trans hxs
      cases ha.symm.trans hxa
      exact .now hys hya (hxy ▸ hr)
    · rw [hs] at hrel
      generalize y.step client = oy at hrel
      cases hrel with
      | some ht =>
        cases ha.symm.trans (gives_of_ne hs (Nat.ne_of_gt ht.deep.1))
  | @later x m' hs ha rest ih =>
    obtain ⟨c, x', y', -, -, -, hxa, -⟩ | hrel := h.step client
    · cases ha.symm.trans hxa
    · rw [hs] at hrel
      generalize hys : y.step client = oy at hrel
      cases hrel with
      | some ht => exact .later hys (gives_of_ne hys (Nat.ne_of_gt ht.deep.2)) (ih ht)

end Twins

section Calls

variable {client : Client σ (Request κ) κ} {r r' : Registry κ} {memory : σ} {duty : Duty κ}
  {next : Answer → Program σ (Request κ) duty.Result} {callers : List (Caller σ (Request κ) κ)}
  {request request' : Request κ} {a : Answer}

theorem settles_of_alike
    (h : (r.start (Language.meaning r.links request)).Alike
      (r.start (Language.meaning r.links request')))
    (hx : Settles client (callers.length + 1) a r'
      ⟨r, memory, .code duty (.call request next), callers⟩) :
    Settles client (callers.length + 1) a r'
      ⟨r, memory, .code duty (.call request' next), callers⟩ := by
  have hreply (request : Request κ) :
      r.reply? (Machine.mk r memory (.code duty (.call request next)) callers).deed =
        (r.start (Language.meaning r.links request)).reply? := by
    rw [deed_call]
    rfl
  have hx' := hreply request
  have hy' := hreply request'
  generalize ho : r.start (Language.meaning r.links request) = o at h hx'
  generalize ho' : r.start (Language.meaning r.links request') = o' at h hy'
  cases h with
  | same o =>
    have hstep : step client ⟨r, memory, .code duty (.call request' next), callers⟩ =
        step client ⟨r, memory, .code duty (.call request next), callers⟩ := by
      simp only [step, ho, ho']
      cases o <;> rfl
    have hgives (depth : Nat) :
        gives client ⟨r, memory, .code duty (.call request' next), callers⟩ depth =
          gives client ⟨r, memory, .code duty (.call request next), callers⟩ depth := by
      simp only [gives, hstep, hx', hy']
    cases hx with
    | now hs ha hr => exact .now (hstep.trans hs) ((hgives _).trans ha) hr
    | later hs ha rest => exact .later (hstep.trans hs) ((hgives _).trans ha) rest
  | reply c r₁ events events' =>
    have hxs : step client ⟨r, memory, .code duty (.call request next), callers⟩ = _ :=
      step_reply ho
    have hys : step client ⟨r, memory, .code duty (.call request' next), callers⟩ = _ :=
      step_reply ho'
    have hxa := gives_of_answer hxs hx'
    cases hx with
    | now hs ha hr =>
      cases hs.symm.trans hxs
      cases ha.symm.trans hxa
      exact .now hys (gives_of_answer hys hy') hr
    | later hs ha rest => cases ha.symm.trans hxa
  | expose n given given' kind early r₁ =>
    have hxs : step client ⟨r, memory, .code duty (.call request next), callers⟩ = _ :=
      step_expose ho
    have hys : step client ⟨r, memory, .code duty (.call request' next), callers⟩ = _ :=
      step_expose ho'
    have ht : Twins n given given' kind (⟨duty, next⟩ :: callers) _ _ :=
      .own r₁ memory (client.early early)
    cases hx with
    | now hs ha hr =>
      cases hs.symm.trans hxs
      cases ha.symm.trans (gives_of_ne hs (Nat.ne_of_gt ht.deep.1))
    | later hs ha rest =>
      cases hs.symm.trans hxs
      exact .later hys (gives_of_ne hys (Nat.ne_of_gt ht.deep.2)) (ht.settles rest)

/-- Requests under names that stand for the same are answered alike and leave the same registry,
whatever the callbacks do that run in between, or neither of them is ever answered. -/
theorem namesakes_address_one_entry (h : request.Namesake r.links request') :
    (Machine.mk r memory (.code duty (.call request next)) callers).Returns client a r' ↔
      (Machine.mk r memory (.code duty (.call request' next)) callers).Returns client a r' := by
  rw [returns_iff_settles, returns_iff_settles, length_duties_code, length_duties_code]
  have ho := Registry.start_alike h
  exact ⟨settles_of_alike ho, settles_of_alike ho.symm⟩

end Calls

def roundabout : Client Unit (Request Name) Name where
  factory name := do
    let _ ← .ask (.defer "a" "a")
    let _ ← .ask (.findAs name .unit)
    return .ok ⟨0, .unit⟩
  early _ := do
    let _ ← .ask (.install "b" ⟨1, .unit⟩)
    return ⟨0, .unit⟩
  disposer _ := return .ok ()
  hear _ memory := memory

def looking (name : Name) : Machine Unit (Request Name) Name :=
  run roundabout 3 (.ofMain ({} : Settings).registry () (do
    let _ ← .ask (.link "a" "aka")
    let _ ← .ask (.obtain "a" name)))

theorem namesakes_address_one_entry_roundabout :
    let r := (run roundabout 3 (looking "aka")).registry
    (looking "aka").registry.links.canonical "aka" =
        (looking "aka").registry.links.canonical "a" ∧
      (looking "aka").deed = .asked (.findAs "aka" "a" .unit) ∧
      (looking "a").deed = .asked (.findAs "a" "a" .unit) ∧
      (looking "aka").Returns roundabout (.object (some ⟨0, .unit⟩)) r ∧
      (looking "a").Returns roundabout (.object (some ⟨0, .unit⟩)) r := by
  have hname : (looking "aka").registry.links.canonical "aka" =
      (looking "aka").registry.links.canonical "a" := by decide
  have haka : (looking "aka").Returns roundabout (.object (some ⟨0, .unit⟩))
      (run roundabout 3 (looking "aka")).registry := ⟨2, ⟨rfl, by decide⟩, rfl⟩
  exact ⟨hname, rfl, rfl, haka, (namesakes_address_one_entry (.findAs hname .unit)).1 haka⟩

end Machine

end ObjectRegistry
