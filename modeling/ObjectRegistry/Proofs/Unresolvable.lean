import ObjectRegistry.Proofs.Circular
import ObjectRegistry.Proofs.Midway
import ObjectRegistry.Proofs.Probes

namespace ObjectRegistry

variable {σ κ : Type}

/-- The fault that a request on a way to a circle ends in: each construction on the way wraps the
fault of the one it asked for. -/
def Snag.fault (s : Snag) : Fault :=
  s.path.foldr (fun n fault => .creationFailed n fault []) (.circularCreation s.name)

theorem Snag.rootCause_fault (s : Snag) : s.fault.rootCause = .circularCreation s.name := by
  obtain ⟨path, c⟩ := s
  induction path with
  | nil => rfl
  | cons n path ih => exact ih

/-- What objects need, the labels of their factories, and how a factory makes a new object: out of
the memory, which it changes, once it has all that the object needs. -/
structure Plan (σ κ : Type) where
  needs : Name → List Name
  build : Name → κ
  advance : σ → σ
  make : Name → σ → Handle

namespace Plan

open Machine

variable {p : Plan σ κ} {client : Client σ (Request κ) κ}

def fetch (p : Plan σ κ) (last : Program σ (Request κ) (Except Fault Handle)) :
    List Name → Program σ (Request κ) (Except Fault Handle)
  | [] => last
  | d :: ds => .attempt (.obtain d (p.build d)) (p.fetch last ds)

/-- Asks for all that the object needs, in order, gives up at the first refusal, and else returns
a new object. No early object is left. -/
def factory (p : Plan σ κ) (n : Name) : Program σ (Request κ) (Except Fault Handle) :=
  p.fetch (.access p.advance fun memory => .done (.ok (p.make n memory))) (p.needs n)

structure Ready (p : Plan σ κ) (client : Client σ (Request κ) κ) (root : Name)
    (base : Registry κ) : Prop where
  isOpen : base.store.closed = false
  fresh : ∀ n, Reaches p.needs root n → base.Fresh n
  factory : ∀ n, Reaches p.needs root n → client.factory (p.build n) = p.factory n

def Owns (p : Plan σ κ) : Duty κ × κ → Prop
  | (.construct n _, callback) => callback = p.build n
  | _ => False

structure Made (p : Plan σ κ) (root : Name) (made : List (Name × Handle)) : Prop where
  ordered : Ordered p.needs (made.map Prod.fst)
  reached : ∀ n ∈ made.map Prod.fst, Reaches p.needs root n
  own : ∀ x ∈ made, ∃ memory, x.2 = p.make x.1 memory

/-- A search of `ds` that started the callbacks `l` has come from the objects `made` to
`made'`. -/
structure Searched (p : Plan σ κ) (root : Name) (stack : List Name) (made : List (Name × Handle))
    (ds : List Name) (l : List (Duty κ × κ)) (made' : List (Name × Handle))
    (snag : Option Snag) : Prop where
  probes : Probes p.needs stack (made.map Prod.fst) ds (started l) (made'.map Prod.fst) snag
  made : p.Made root made'
  owns : ∀ x ∈ l, p.Owns x

def Tells (d : Name) (made : List (Name × Handle)) (snag : Option Snag)
    (outcome : Except Fault Handle) : Prop :=
  match snag with
  | none => ∃ h, outcome = .ok h ∧ (d, h) ∈ made
  | some s => outcome = .error s.fault

abbrev asking (p : Plan σ κ) (r : Registry κ) (memory : σ) (d : Name) (duty : Duty κ)
    (next : Answer → Program σ (Request κ) duty.Result)
    (callers : List (Caller σ (Request κ) κ)) : Machine σ (Request κ) κ :=
  ⟨r, memory, .code duty (.call (.obtain d (p.build d)) next), callers⟩

/-- A request for `d` is answered once it has searched what `d` leads to. -/
def Asks (p : Plan σ κ) (client : Client σ (Request κ) κ) (base : Registry κ) (root : Name)
    (stack : List Name) (made : List (Name × Handle)) (memory : σ) (d : Name) (duty : Duty κ)
    (next : Answer → Program σ (Request κ) duty.Result)
    (callers : List (Caller σ (Request κ) κ)) : Prop :=
  ∃ l made' snag memory' outcome,
    let m := p.asking (base.midway stack made) memory d duty next callers
    let m' : Machine σ (Request κ) κ :=
      ⟨base.midway stack made', memory', .code duty (next (.made outcome)), callers⟩
    m.Trail client (fun x => m.duties.length ≤ x.duties.length) l m' ∧
      (∃ k, m.AnswersAfter client k (.made outcome) ∧ run client (k + 1) m = m' ∧
        launches client (k + 1) m = l) ∧
      p.Searched root stack made [d] l made' snag ∧ Tells d made' snag outcome

def resume (last : Program σ (Request κ) (Except Fault Handle)) :
    Option Snag → Program σ (Request κ) (Except Fault Handle)
  | none => last
  | some s => .done (.error s.fault)

/-- A factory that asks for `ds` comes to `last`, or returns the fault it was told. -/
def Fetches (p : Plan σ κ) (client : Client σ (Request κ) κ) (base : Registry κ) (root : Name)
    (stack : List Name) (made : List (Name × Handle)) (memory : σ) (ds : List Name) (n : Name)
    (ownsWindow : Bool) (last : Program σ (Request κ) (Except Fault Handle))
    (callers : List (Caller σ (Request κ) κ)) : Prop :=
  ∃ l made' snag memory',
    let m : Machine σ (Request κ) κ :=
      ⟨base.midway stack made, memory, .code (.construct n ownsWindow) (p.fetch last ds), callers⟩
    m.Trail client (fun x => m.duties.length ≤ x.duties.length) l
        ⟨base.midway stack made', memory', .code (.construct n ownsWindow) (resume last snag),
          callers⟩ ∧
      p.Searched root stack made ds l made' snag

section Requests

variable {root d n : Name} {base : Registry κ} {stack ds : List Name}
  {made made' : List (Name × Handle)} {memory : σ} {duty : Duty κ}
  {next : Answer → Program σ (Request κ) duty.Result} {callers : List (Caller σ (Request κ) κ)}
  {l : List (Duty κ × κ)} {snag : Option Snag} {ownsWindow : Bool}
  {last : Program σ (Request κ) (Except Fault Handle)}

theorem meaning_obtain (hr : p.Ready client root base) (hd : Reaches p.needs root d)
    (factory : κ) :
    (base.midway stack made).start
        (Language.meaning (base.midway stack made).links (Request.obtain d factory)) =
      (base.midway stack made).obtain d factory := by
  change (base.midway stack made).obtain (base.links.canonical d) factory = _
  rw [Links.canonical_of_isAlias (hr.fresh d hd).unlinked]

theorem Made.fresh (h : p.Made root made) (hr : p.Ready client root base) :
    ∀ n ∈ made.map Prod.fst, base.Fresh n :=
  fun n hn => hr.fresh n (h.reached n hn)

theorem asks_reply (hr : p.Ready client root base) (hd : Reaches p.needs root d)
    (hm : p.Made root made) {outcome : Except Fault Handle} {events : List Event}
    (ho : (base.midway stack made).obtain d (p.build d) =
      .reply (.made outcome) (base.midway stack made) events)
    (hp : Probes p.needs stack (made.map Prod.fst) [d] [] (made.map Prod.fst) snag)
    (ht : Tells d made snag outcome) :
    p.Asks client base root stack made memory d duty next callers := by
  rw [← meaning_obtain hr hd] at ho
  let m := p.asking (base.midway stack made) memory d duty next callers
  have hstep : m.step client = some _ := step_reply ho
  have ha : m.AnswersAfter client 0 (.made outcome) := answersAfter_of_start deed_call ho
  have hl : m.registry.launch? m.deed = none := by
    rw [deed_call, Registry.launch?, ho]
    rfl
  refine ⟨[], made, snag, _, outcome, .cons (Nat.le_refl _) hstep hl (.stay _), ⟨0, ha, ?_, ?_⟩,
    ⟨hp, hm, fun x hx => absurd hx List.not_mem_nil⟩, ht⟩
  · exact run_succ_of_step hstep 0
  · rw [launches_succ hstep, hl]
    rfl

theorem Made.after (h : p.Made root made) {begun : List Name}
    (hp : Probes p.needs stack (made.map Prod.fst) ds begun (made'.map Prod.fst) snag)
    (hds : ∀ d ∈ ds, Reaches p.needs root d)
    (hown : ∀ x ∈ made', ∃ memory, x.2 = p.make x.1 memory) : p.Made root made' where
  ordered := hp.ordered h.ordered
  reached n hn := by
    obtain hn | ⟨d, hd, hdn⟩ := hp.reaches_of_listed hn
    · exact h.reached n hn
    · exact (hds d hd).trans hdn
  own := hown

abbrev building (base : Registry κ) (stack : List Name) (made : List (Name × Handle))
    (memory : σ) (d : Name) (program : Program σ (Request κ) (Except Fault Handle))
    (callers : List (Caller σ (Request κ) κ)) : Machine σ (Request κ) κ :=
  ⟨base.midway (d :: stack) made, memory,
    .code (.construct d (base.marks.under stack).window.isNone) program, callers⟩

theorem asks_built (hr : p.Ready client root base) (hd : Reaches p.needs root d)
    (hn : d ∉ made.map Prod.fst) (hs : d ∉ stack) {made'' : List (Name × Handle)} {memory' : σ}
    {result outcome : Except Fault Handle} {events : List Event}
    (ht : Trail client
      (fun x => (p.asking (base.midway stack made) memory d duty next callers).duties.length <
        x.duties.length)
      (building base stack made (remember client [.creationStarted d] memory) d (p.factory d)
        (⟨duty, next⟩ :: callers))
      l (building base stack made' memory' d (.done result) (⟨duty, next⟩ :: callers)))
    (hc : (base.midway (d :: stack) made').complete d (base.marks.under stack).window.isNone
      result = (.made outcome, base.midway stack made'', events))
    (hp : Probes p.needs stack (made.map Prod.fst) [d] (d :: started l) (made''.map Prod.fst) snag)
    (hm : p.Made root made'') (hl : ∀ x ∈ l, p.Owns x) (htell : Tells d made'' snag outcome) :
    p.Asks client base root stack made memory d duty next callers := by
  have ho : (base.midway stack made).obtain d (p.build d) = _ :=
    Registry.obtain_midway_new (hr.fresh d hd) hr.isOpen hn hs
  rw [← meaning_obtain hr hd] at ho
  let launch : Duty κ × κ :=
    (.construct d (base.marks.under stack).window.isNone, p.build d)
  let m := p.asking (base.midway stack made) memory d duty next callers
  have hstep : m.step client = some _ := step_construct ho
  rw [hr.factory d hd] at hstep
  have hlaunch : m.registry.launch? m.deed = some launch := by
    rw [deed_call, Registry.launch?, ho]
    rfl
  let m₂ := building base stack made' memory' d (.done result) (⟨duty, next⟩ :: callers)
  have hstep₂ : m₂.step client = some ⟨base.midway stack made'', remember client events memory',
      .code duty (next (.made outcome)), callers⟩ := by
    simp only [m₂, step, finish, hc, answer]
  have ha : m₂.registry.reply? m₂.deed = some (.made outcome) := by
    change some (Registry.complete _ _ _ _).1 = _
    rw [hc]
  have htrail := ht.mono (Q := fun x => m.duties.length ≤ x.duties.length) fun x => Nat.le_of_lt
  have hend : m₂.Trail client (fun x => m.duties.length ≤ x.duties.length) [] _ :=
    .cons (Nat.le_succ _) hstep₂ rfl (.stay _)
  have hall := Trail.cons (Nat.le_refl _) hstep hlaunch (htrail.trans hend)
  obtain ⟨k, hk, hrun, hlaunches⟩ :=
    Trail.answersAfter hstep ht hstep₂ (Nat.lt_succ_self _) rfl ha
  rw [hlaunch] at hlaunches
  have hnone : (m₂.registry.launch? m₂.deed).toList = [] := rfl
  rw [hnone, List.append_nil] at hlaunches
  rw [List.append_nil] at hall
  exact ⟨launch :: l, made'', snag, _, outcome, hall, ⟨k, hk, hrun, hlaunches⟩,
    ⟨hp, hm, List.forall_mem_cons.2 ⟨rfl, hl⟩⟩, htell⟩

theorem asks_construct (hr : p.Ready client root base) (hd : Reaches p.needs root d)
    (hm : p.Made root made) (hn : d ∉ made.map Prod.fst) (hs : d ∉ stack)
    (hfetch : ∀ (memory : σ) (callers : List (Caller σ (Request κ) κ)),
      p.Fetches client base root (d :: stack) made memory (p.needs d) d
        (base.marks.under stack).window.isNone
        (.access p.advance fun memory => .done (.ok (p.make d memory))) callers) :
    p.Asks client base root stack made memory d duty next callers := by
  obtain ⟨l, made', snag, memory', ht, hsearched⟩ :=
    hfetch (remember client [.creationStarted d] memory) (⟨duty, next⟩ :: callers)
  have hd' : ∀ k ∈ [d], Reaches p.needs root k := fun k hk => List.mem_singleton.1 hk ▸ hd
  have hnew : d ∉ made'.map Prod.fst :=
    fun hd => hsearched.probes.not_opened hd hn List.mem_cons_self
  cases snag with
  | some s =>
    have hp : Probes p.needs stack (made.map Prod.fst) [d] (d :: started l) (made'.map Prod.fst)
        (some ⟨d :: s.path, s.name⟩) := .within hn hs hsearched.probes
    have hc := Registry.complete_midway_error (hr.fresh d hd) stack
      (hsearched.made.fresh hr) hsearched.made.ordered.nodup hnew s.fault
    exact asks_built hr hd hn hs ht hc hp hsearched.made hsearched.owns rfl
  | none =>
    let made'' := made' ++ [(d, p.make d memory')]
    have hp : Probes p.needs stack (made.map Prod.fst) [d] (d :: started l) (made''.map Prod.fst)
        none := by
      have hfirst := Probes.first hn hs hsearched.probes (.nil stack _)
      rw [List.append_nil] at hfirst
      rwa [List.map_append]
    have hmake : Trail client
        (fun x => (p.asking (base.midway stack made) memory d duty next callers).duties.length <
          x.duties.length)
        (building base stack made' memory' d
          (.access p.advance fun memory => .done (.ok (p.make d memory)))
          (⟨duty, next⟩ :: callers))
        [] (building base stack made' (p.advance memory') d (.done (.ok (p.make d memory')))
          (⟨duty, next⟩ :: callers)) :=
      .cons (Nat.lt_succ_self _) rfl rfl (.stay _)
    have htrail := ht.trans hmake
    rw [List.append_nil] at htrail
    have hmade : p.Made root made'' := by
      refine hm.after hp hd' fun x hx => ?_
      obtain hx | hx := List.mem_append.1 hx
      · exact hsearched.made.own x hx
      · exact ⟨memory', List.mem_singleton.1 hx ▸ rfl⟩
    exact asks_built hr hd hn hs htrail (Registry.complete_midway_ok (hr.fresh d hd)) hp hmade
      hsearched.owns ⟨_, rfl, List.mem_append_right _ (List.mem_singleton_self _)⟩

def AsksUpTo (p : Plan σ κ) (client : Client σ (Request κ) κ) (base : Registry κ) (root : Name)
    (names : List Name) (bound : Nat) : Prop :=
  ∀ {stack : List Name} {made : List (Name × Handle)} {d : Name} (memory : σ) (duty : Duty κ)
    (next : Answer → Program σ (Request κ) duty.Result)
    (callers : List (Caller σ (Request κ) κ)),
    (Wiring.missing names (stack ++ made.map Prod.fst)).card ≤ bound → Reaches p.needs root d →
    p.Made root made → p.Asks client base root stack made memory d duty next callers

/-- By induction on what is asked for: a factory goes on as long as no request is refused. -/
theorem fetches {names : List Name} {bound : Nat}
    (hask : p.AsksUpTo client base root names bound) (hds : ∀ d ∈ ds, Reaches p.needs root d)
    (hb : (Wiring.missing names (stack ++ made.map Prod.fst)).card ≤ bound)
    (hm : p.Made root made) (memory : σ) :
    p.Fetches client base root stack made memory ds n ownsWindow last callers := by
  induction ds generalizing made memory with
  | nil =>
    exact ⟨[], made, none, memory, .stay _, .nil _ _, hm, fun x hx => absurd hx List.not_mem_nil⟩
  | cons d ds ih =>
    obtain ⟨l, made₁, snag, memory₁, outcome, ht, -, hs, htell⟩ :=
      hask memory (.construct n ownsWindow) _ callers hb (hds d List.mem_cons_self) hm
    cases snag with
    | some s =>
      cases htell
      exact ⟨l, made₁, some s, memory₁, ht, hs.probes.append_of_snag rfl ds, hs.made, hs.owns⟩
    | none =>
      obtain ⟨h, rfl, -⟩ := htell
      have hb₁ : (Wiring.missing names (stack ++ made₁.map Prod.fst)).card ≤ bound :=
        Nat.le_trans (Wiring.card_missing_le (List.append_subset.2
          ⟨List.subset_append_left stack _,
            List.subset_append_of_subset_right stack hs.probes.subset⟩)) hb
      obtain ⟨l', made', snag', memory', ht', hs'⟩ :=
        ih (fun k hk => hds k (List.mem_cons_of_mem d hk)) hb₁ hs.made memory₁
      refine ⟨l ++ l', made', snag', memory', ht.trans ht', ?_, hs'.made, ?_⟩
      · rw [started_append]
        exact hs.probes.append rfl hs'.probes
      · exact List.forall_mem_append.2 ⟨hs.owns, hs'.owns⟩

theorem asks_begun (hr : p.Ready client root base) (hd : Reaches p.needs root d)
    (hm : p.Made root made) (hb : d ∈ stack ++ made.map Prod.fst) :
    p.Asks client base root stack made memory d duty next callers := by
  by_cases hn : d ∈ made.map Prod.fst
  · obtain ⟨⟨d, h⟩, hx, rfl⟩ := List.mem_map.1 hn
    exact asks_reply hr hd hm
      (Registry.obtain_midway_made (hr.fresh d hd) hm.ordered.nodup hx) (.again hn (.nil _ _))
      ⟨h, rfl, hx⟩
  · have hs := (List.mem_append.1 hb).resolve_right hn
    exact asks_reply hr hd hm
      (Registry.obtain_midway_circular (hr.fresh d hd) hr.isOpen hn (hm.fresh hr) hs)
      (.snag hn hs) rfl

theorem asksUpTo {names : List Name} (hr : p.Ready client root base)
    (hn : ∀ n, Reaches p.needs root n → n ∈ names) (bound : Nat) :
    p.AsksUpTo client base root names bound := by
  induction bound with
  | zero =>
    intro stack made d memory duty next callers hb hd hm
    apply asks_begun hr hd hm
    by_contra hnew
    have := Wiring.card_missing_lt (hn d hd) hnew
    omega
  | succ bound ih =>
    intro stack made d memory duty next callers hb hd hm
    by_cases hnew : d ∈ stack ++ made.map Prod.fst
    · exact asks_begun hr hd hm hnew
    · have hlt := Wiring.card_missing_lt (hn d hd) hnew
      have hle : (Wiring.missing names (d :: stack ++ made.map Prod.fst)).card ≤
          (Wiring.missing names (stack ++ made.map Prod.fst ++ [d])).card :=
        Wiring.card_missing_le (List.perm_append_singleton d _).subset
      rw [List.mem_append, not_or] at hnew
      exact asks_construct hr hd hm hnew.2 hnew.1 fun memory callers =>
        fetches ih (fun k hk => hd.tail hk) (by omega) hm memory

/-- A request for `root` succeeds if and only if `root` leads to no circle. Then all that it leads
to is made, each object once and after those it needs. Else the fault names the way to a circle,
and what was made on the way stays, but nothing that leads to a circle was made. -/
theorem circles_are_detected {names : List Name} {m : Machine σ (Request κ) κ}
    (hr : p.Ready client root m.registry) (hn : ∀ n, Reaches p.needs root n → n ∈ names)
    (hm : m.activity = .code duty (.call (.obtain root (p.build root)) next)) :
    ∃ (k : Nat) (outcome : Except Fault Handle) (made : List (Name × Handle)),
      let m' := run client (k + 1) m
      let begun := started (launches client (k + 1) m)
      let listed := made.map Prod.fst
      m.AnswersAfter client k (.made outcome) ∧
        m'.activity = .code duty (next (.made outcome)) ∧ m'.callers = m.callers ∧
        m'.registry = { m.registry with store := m.registry.store.finishAll made } ∧
        m'.registry.store.early = m.registry.store.early ∧
        m'.registry.store.pending = m.registry.store.pending ∧
        m'.registry.store.names = m.registry.store.names ++ listed ∧
        (∀ x ∈ made, m'.registry.store.finished[x.1]? = some x.2 ∧
          ∃ memory, x.2 = p.make x.1 memory) ∧
        begun.Nodup ∧ (∀ x ∈ launches client (k + 1) m, p.Owns x) ∧
        Ordered p.needs listed ∧
        (∀ n c, Reaches p.needs root n → Reaches p.needs n c → OnCircle p.needs c →
          m'.registry.store.finished[n]? = none) ∧
        ((∃ h, outcome = .ok h) ↔ ¬∃ c, Reaches p.needs root c ∧ OnCircle p.needs c) ∧
        (∀ h, outcome = .ok h →
          (root, h) ∈ made ∧ (∀ n, n ∈ listed ↔ Reaches p.needs root n) ∧ begun.Perm listed) ∧
        ∀ fault, outcome = .error fault →
          ∃ s : Snag, s.From p.needs root ∧ fault = s.fault ∧
            fault.rootCause = .circularCreation s.name ∧ Reaches p.needs root s.name ∧
            OnCircle p.needs s.name ∧ begun.Perm (listed ++ s.path) := by
  obtain ⟨r, memory, activity, callers⟩ := m
  cases hm
  have hnone : p.Made root [] := ⟨.nil _, fun n hn => absurd hn List.not_mem_nil,
    fun x hx => absurd hx List.not_mem_nil⟩
  have hasks : p.Asks client r root [] [] memory root duty next callers :=
    asksUpTo hr hn _ memory duty next callers (Nat.le_refl _) .refl hnone
  obtain ⟨l, made, snag, memory', outcome, -, ⟨k, hk, hrun, hl⟩, ⟨hp, hmade, howns⟩, htell⟩ :=
    hasks
  rw [Registry.midway_nil] at hrun hl
  have hfresh := hmade.fresh hr
  have hnodup := hmade.ordered.nodup
  refine ⟨k, outcome, made, hk, ?_⟩
  simp only [hrun, hl]
  refine ⟨trivial, trivial, rfl, Registry.early_midway [] hfresh, Registry.pending_midway [] hfresh,
    Registry.names_midway [] hfresh hnodup,
    fun x hx => ⟨Store.finishAll_finished hnodup hx, hmade.own x hx⟩, hp.begun_nodup, howns,
    hmade.ordered, ?_, ?_, ?_, ?_⟩
  · intro n c hr' hnc hc
    have hnot : n ∉ made.map Prod.fst :=
      fun hn => hmade.ordered.not_onCircle_of_reaches hn hnc hc
    exact (Store.finishAll_finished_of_not_mem hnot).trans (hr.fresh n hr').finished
  · rw [← hp.snag_iff]
    cases snag with
    | none =>
      obtain ⟨h, rfl, -⟩ := htell
      exact ⟨fun _ => rfl, fun _ => ⟨h, rfl⟩⟩
    | some s =>
      cases htell
      exact ⟨fun ⟨h, he⟩ => (by cases he), fun h => (by cases h)⟩
  · rintro h rfl
    cases snag with
    | some s => cases htell
    | none =>
      obtain ⟨h, he, hx⟩ := htell
      cases he
      have hperm := hp.begun_perm
      rw [Snag.leftOpen, List.append_nil] at hperm
      exact ⟨hx, fun n => hp.mem_iff rfl, hperm⟩
  · rintro fault rfl
    cases snag with
    | none =>
      obtain ⟨h, he, -⟩ := htell
      cases he
    | some s =>
      cases htell
      have hfrom := hp.snag_from rfl
      exact ⟨s, hfrom, rfl, s.rootCause_fault, hfrom.reaches, hfrom.onCircle, hp.begun_perm⟩

end Requests

section Tangle

def tangle : Plan Nat Name where
  needs n := if n = "a" then ["c", "b"] else if n = "b" then ["a"] else []
  build n := n
  advance := Nat.succ
  make n memory := ⟨memory, .str n⟩

def tangleClient : Client Nat (Request Name) Name where
  factory := tangle.factory
  early n := .done ⟨0, .str n⟩
  disposer _ := .done (.ok ())
  hear _ memory := memory

def tangled : Machine Nat (Request Name) Name :=
  .ofMain ({} : Settings).registry 0 (.call (.obtain "a" "a") fun _ => .done ())

theorem tangle_reaches {n : Name} (h : Reaches tangle.needs "a" n) : n ∈ ["a", "b", "c"] := by
  have hclosed : ∀ b ∈ ["a", "b", "c"], ∀ c ∈ tangle.needs b, c ∈ ["a", "b", "c"] := by decide
  induction h with
  | refl => exact List.mem_cons_self
  | tail _ hc ih => exact hclosed _ ih _ hc

theorem tangle_ready : tangle.Ready tangleClient "a" tangled.registry where
  isOpen := rfl
  fresh n hn := by
    have h := tangle_reaches hn
    simp only [List.mem_cons, List.not_mem_nil, or_false] at h
    rcases h with rfl | rfl | rfl <;> constructor <;> decide
  factory n _ := rfl

theorem tangle_onCircle : OnCircle tangle.needs "a" :=
  .tail (.single (by decide : "b" ∈ tangle.needs "a")) (by decide : "a" ∈ tangle.needs "b")

theorem circles_are_detected_tangle :
    tangle.Ready tangleClient "a" tangled.registry ∧
      ∃ k fault, tangled.AnswersAfter tangleClient k (.made (.error fault)) ∧
        (∃ c, fault.rootCause = .circularCreation c) ∧
        (run tangleClient (k + 1) tangled).registry.store.finished["a"]? = none := by
  refine ⟨tangle_ready, ?_⟩
  obtain ⟨k, outcome, made, ha, -, -, -, -, -, -, -, -, -, -, hf, hiff, -, herror⟩ :=
    circles_are_detected tangle_ready (fun n hn => tangle_reaches hn) rfl
  have hnone := hf "a" "a" .refl .refl tangle_onCircle
  cases outcome with
  | ok h => exact absurd ⟨"a", .refl, tangle_onCircle⟩ (hiff.1 ⟨h, rfl⟩)
  | error fault =>
    obtain ⟨s, -, -, hcause, -⟩ := herror fault rfl
    exact ⟨k, fault, ha, ⟨s.name, hcause⟩, hnone⟩

end Tangle

end Plan

end ObjectRegistry
