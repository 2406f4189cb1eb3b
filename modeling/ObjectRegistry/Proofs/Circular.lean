import Mathlib.Data.Finset.Card
import ObjectRegistry.Proofs.Calls
import ObjectRegistry.Proofs.Weave

namespace ObjectRegistry

variable {σ κ : Type}

def Program.attempt {ρ α : Type} (request : ρ) (next : Program σ ρ (Except Fault α)) :
    Program σ ρ (Except Fault α) :=
  .call request fun
    | .made (.error fault) | .settled (.error fault) => .done (.error fault)
    | .panicked p => .panic p
    | _ => next

def Duty.showing? : Duty κ → Option Name
  | .expose n _ => some n
  | _ => none

def started (launches : List (Duty κ × κ)) : List Name := launches.filterMap (·.1.making?)

def exposed (launches : List (Duty κ × κ)) : List Name := launches.filterMap (·.1.showing?)

section Launches

variable (l l' : List (Duty κ × κ))

@[simp] theorem started_nil : started ([] : List (Duty κ × κ)) = [] := rfl

@[simp] theorem exposed_nil : exposed ([] : List (Duty κ × κ)) = [] := rfl

@[simp] theorem started_append : started (l ++ l') = started l ++ started l' :=
  List.filterMap_append

@[simp] theorem exposed_append : exposed (l ++ l') = exposed l ++ exposed l' :=
  List.filterMap_append

end Launches

namespace Wiring

variable {w : Wiring κ} {client : Client σ (Request κ) κ}

def seek (w : Wiring κ) (last : Program σ (Request κ) (Except Fault Handle)) :
    List Name → Program σ (Request κ) (Except Fault Handle)
  | [] => last
  | d :: ds => .attempt (.obtain d (w.build d)) (w.seek last ds)

/-- Leaves the early object, asks for what the object needs, and returns it. -/
def factory (w : Wiring κ) (n : Name) : Program σ (Request κ) (Except Fault Handle) :=
  .attempt (.defer n (w.early n)) (w.seek (.done (.ok (w.object n))) (w.needs n))

structure Ready (w : Wiring κ) (client : Client σ (Request κ) κ) (root : Name)
    (base : Registry κ) : Prop where
  isOpen : base.store.closed = false
  fresh : ∀ n, Reaches w.needs root n → base.Fresh n
  factory : ∀ n, Reaches w.needs root n → client.factory (w.build n) = w.factory n
  early : ∀ n, Reaches w.needs root n → client.early (w.early n) = .done (w.object n)

/-- A machine on a run above `depth` programs. If it is about to ask for an object, it is answered
by that object. -/
def Answered (w : Wiring κ) (client : Client σ (Request κ) κ) (depth : Nat)
    (m : Machine σ (Request κ) κ) : Prop :=
  depth ≤ m.duties.length ∧
    ∀ d factory, m.deed = .asked (.obtain d factory) →
      m.Answers client (.made (.ok (w.object d)))

def Owns (w : Wiring κ) : Duty κ × κ → Prop
  | (.construct n _, callback) => callback = w.build n
  | (.expose n _, callback) => callback = w.early n
  | (.main, _) | (.dispose .., _) => False

/-- From `m` a run leads to `program`, and on the way what `ds` lead to is made. -/
def Serves (w : Wiring κ) (client : Client σ (Request κ) κ) (base : Registry κ)
    (begun stack shown ds : List Name) (m : Machine σ (Request κ) κ) (duty : Duty κ)
    (program : Program σ (Request κ) duty.Result) : Prop :=
  ∃ l r memory,
    m.Trail client (w.Answered client m.duties.length) l
        ⟨r, memory, .code duty program, m.callers⟩ ∧
      (∀ x ∈ l, w.Owns x) ∧
      Weave w base (begun ++ started l) stack (shown ++ exposed l) r ∧
      Visits w.needs begun ds (begun ++ started l)

section Requests

open Machine

variable {root d : Name} {base r : Registry κ} {begun stack shown : List Name} {memory : σ}
  {duty : Duty κ} {next : Answer → Program σ (Request κ) duty.Result}
  {callers : List (Caller σ (Request κ) κ)}

abbrev asking (w : Wiring κ) (r : Registry κ) (memory : σ) (d : Name) (duty : Duty κ)
    (next : Answer → Program σ (Request κ) duty.Result)
    (callers : List (Caller σ (Request κ) κ)) : Machine σ (Request κ) κ :=
  ⟨r, memory, .code duty (.call (.obtain d (w.build d)) next), callers⟩

theorem meaning_obtain (hr : w.Ready client root base) (hd : Reaches w.needs root d)
    (h : Weave w base begun stack shown r) (factory : κ) :
    r.start (Language.meaning r.links (Request.obtain d factory)) = r.obtain d factory := by
  change r.obtain (r.links.canonical d) factory = _
  rw [h.links, Links.canonical_of_isAlias (hr.fresh d hd).unlinked]

theorem answered_asking (hr : w.Ready client root base) (hd : Reaches w.needs root d)
    (h : Weave w base begun stack shown r)
    (ha : (w.asking r memory d duty next callers).Answers client (.made (.ok (w.object d)))) :
    w.Answered client (w.asking r memory d duty next callers).duties.length
      (w.asking r memory d duty next callers) := by
  refine ⟨Nat.le_refl _, fun k factory hk => ?_⟩
  rw [deed_call] at hk
  have hd' : r.links.canonical d = d := by
    rw [h.links, Links.canonical_of_isAlias (hr.fresh d hd).unlinked]
  have hkd : Op.obtain (r.links.canonical d) (w.build d) = .obtain k factory :=
    Deed.asked.inj hk
  rw [hd'] at hkd
  cases hkd
  exact ha

theorem serves_reply (hr : w.Ready client root base) (hd : Reaches w.needs root d)
    (h : Weave w base begun stack shown r) {events : List Event} (hb : d ∈ begun)
    (hs : r.obtain d (w.build d) = .reply (.made (.ok (w.object d))) r events) :
    w.Serves client base begun stack shown [d] (w.asking r memory d duty next callers) duty
      (next (.made (.ok (w.object d)))) := by
  rw [← meaning_obtain hr hd h] at hs
  have hstep : (w.asking r memory d duty next callers).step client = some _ := step_reply hs
  have ha : (w.asking r memory d duty next callers).Answers client _ :=
    answers_of_start deed_call hs
  have hl : r.launch? (w.asking r memory d duty next callers).deed = none := by
    rw [deed_call, Registry.launch?, hs]
    rfl
  refine ⟨[], r, _, .cons (answered_asking hr hd h ha) hstep hl (.stay _),
    fun x hx => absurd hx List.not_mem_nil, ?_, ?_⟩
  · simpa only [started_nil, exposed_nil, List.append_nil] using h
  · simpa only [started_nil, List.append_nil] using Visits.again hb (.nil begun)

theorem serves_expose (hr : w.Ready client root base) (hd : Reaches w.needs root d)
    (h : Weave w base begun stack shown r) (hs : d ∈ stack) (he : d ∉ shown) :
    w.Serves client base begun stack shown [d] (w.asking r memory d duty next callers) duty
      (next (.made (.ok (w.object d)))) := by
  have ho : r.obtain d (w.build d) = _ := h.obtain_unshown (hr.fresh d hd) hr.isOpen hs he
  rw [← meaning_obtain hr hd h] at ho
  let m := w.asking r memory d duty next callers
  let m₁ : Machine σ (Request κ) κ :=
    ⟨{ r with store := r.store.takePending d }, memory,
      .code (.expose d .obtain) (.done (w.object d)), ⟨duty, next⟩ :: callers⟩
  have hstep : m.step client = some m₁ := by
    rw [step_expose ho, hr.early d hd]
  have hl : r.launch? m.deed = some (.expose d .obtain, w.early d) := by
    rw [deed_call, Registry.launch?, ho]
    rfl
  have ha : m.Answers client (.made (.ok (w.object d))) :=
    Trail.answers hstep (.stay m₁) rfl (Nat.lt_succ_self _) rfl rfl
  have hm₁ : w.Answered client m.duties.length m₁ :=
    ⟨Nat.le_succ _, fun k factory hk => by cases hk⟩
  refine ⟨[(.expose d .obtain, w.early d)], _, _,
    .cons (answered_asking hr hd h ha) hstep hl (.cons hm₁ rfl rfl (.stay _)),
    List.forall_mem_singleton.2 rfl, ?_, ?_⟩
  · have hw := h.expose (hr.fresh d hd) hs he
    rwa [← List.append_nil begun] at hw
  · rw [started, List.filterMap_cons_none rfl, List.filterMap_nil, List.append_nil]
    exact .again (h.stack_subset hs) (.nil begun)

def missing (names begun : List Name) : Finset Name := names.toFinset \ begun.toFinset

theorem card_missing_lt {names : List Name} (hn : d ∈ names) (hb : d ∉ begun) :
    (missing names (begun ++ [d])).card < (missing names begun).card := by
  apply Finset.card_lt_card
  rw [Finset.ssubset_iff_of_subset]
  · refine ⟨d, ?_, ?_⟩
    · simp only [missing, Finset.mem_sdiff, List.mem_toFinset, hn, hb, not_false_eq_true, and_self]
    · simp only [missing, Finset.mem_sdiff, List.mem_toFinset, List.mem_append, List.mem_singleton,
        or_true, not_true_eq_false, and_false, not_false_eq_true]
  · intro k
    simp only [missing, Finset.mem_sdiff, List.mem_toFinset, List.mem_append, not_or]
    rintro ⟨hk, hkb, -⟩
    exact ⟨hk, hkb⟩

theorem card_missing_le {names begun' : List Name} (h : begun ⊆ begun') :
    (missing names begun').card ≤ (missing names begun).card := by
  apply Finset.card_le_card
  intro k
  simp only [missing, Finset.mem_sdiff, List.mem_toFinset]
  rintro ⟨hk, hkb⟩
  exact ⟨hk, fun hb => hkb (h hb)⟩

def ServesUpTo (w : Wiring κ) (client : Client σ (Request κ) κ) (root : Name) (base : Registry κ)
    (names : List Name) (bound : Nat) : Prop :=
  ∀ {begun stack shown : List Name} {r : Registry κ} {d : Name} (memory : σ) (duty : Duty κ)
    (next : Answer → Program σ (Request κ) duty.Result)
    (callers : List (Caller σ (Request κ) κ)),
    (missing names begun).card ≤ bound → Reaches w.needs root d →
    Weave w base begun stack shown r →
    w.Serves client base begun stack shown [d] (w.asking r memory d duty next callers) duty
      (next (.made (.ok (w.object d))))

theorem serves_seek {names : List Name} {bound : Nat} {n : Name} {ownsWindow : Bool}
    {last : Program σ (Request κ) (Except Fault Handle)}
    (hserve : w.ServesUpTo client root base names bound) {ds : List Name}
    (hds : ∀ d ∈ ds, Reaches w.needs root d) (hb : (missing names begun).card ≤ bound)
    (h : Weave w base begun stack shown r) (memory : σ) :
    w.Serves client base begun stack shown ds
      ⟨r, memory, .code (.construct n ownsWindow) (w.seek last ds), callers⟩
      (.construct n ownsWindow) last := by
  induction ds generalizing begun shown r memory with
  | nil =>
    refine ⟨[], r, memory, .stay _, fun x hx => absurd hx List.not_mem_nil, ?_, ?_⟩
    · simpa only [started_nil, exposed_nil, List.append_nil] using h
    · simpa only [started_nil, List.append_nil] using Visits.nil begun
  | cons d ds ih =>
    obtain ⟨l, r₁, memory₁, ht, ho, hw, hv⟩ :=
      hserve memory (.construct n ownsWindow) _ callers hb (hds d List.mem_cons_self) h
    have hb₁ : (missing names (begun ++ started l)).card ≤ bound :=
      Nat.le_trans (card_missing_le hv.subset) hb
    obtain ⟨l', r₂, memory₂, ht', ho', hw', hv'⟩ :=
      ih (fun k hk => hds k (List.mem_cons_of_mem d hk)) hb₁ hw memory₁
    refine ⟨l ++ l', r₂, memory₂, ht.trans ht', ?_, ?_, ?_⟩
    · intro x hx
      obtain hx | hx := List.mem_append.1 hx
      · exact ho x hx
      · exact ho' x hx
    · simpa only [started_append, exposed_append, List.append_assoc] using hw'
    · rw [started_append, ← List.append_assoc]
      exact hv.append hv'

theorem step_factory (hr : w.Ready client root base) (hd : Reaches w.needs root d)
    (h : Weave w base begun stack shown r) (hnew : d ∉ begun) (ownsWindow : Bool) (memory : σ)
    (callers : List (Caller σ (Request κ) κ)) :
    let m : Machine σ (Request κ) κ :=
      ⟨r.begun d, memory, .code (.construct d ownsWindow) (w.factory d), callers⟩
    m.step client = some ⟨r.entered d (w.early d), remember client [.earlyDeferred d] memory,
        .code (.construct d ownsWindow) (w.seek (.done (.ok (w.object d))) (w.needs d)), callers⟩ ∧
      m.registry.launch? m.deed = none := by
  have hdefer :
      (r.begun d).start (Language.meaning (r.begun d).links (Request.defer d (w.early d))) =
        .reply (.settled (.ok ())) (r.entered d (w.early d)) [.earlyDeferred d] := by
    rw [← (h.begin (hr.fresh d hd) hnew).1]
    change (r.begun d).defer (r.links.canonical d) (w.early d) = _
    rw [h.links, Links.canonical_of_isAlias (hr.fresh d hd).unlinked]
  refine ⟨step_reply hdefer, ?_⟩
  change (Outset.launch? (Registry.start _ _)) = _
  rw [hdefer]
  rfl

theorem serves_construct {names : List Name} {bound : Nat} (hr : w.Ready client root base)
    (hn : d ∈ names) (hserve : w.ServesUpTo client root base names bound)
    (hb : (missing names begun).card ≤ bound + 1) (hd : Reaches w.needs root d)
    (h : Weave w base begun stack shown r) (hnew : d ∉ begun) :
    w.Serves client base begun stack shown [d] (w.asking r memory d duty next callers) duty
      (next (.made (.ok (w.object d)))) := by
  have ho : r.obtain d (w.build d) = _ := h.obtain_new (hr.fresh d hd) hr.isOpen hnew
  rw [← meaning_obtain hr hd h] at ho
  let m := w.asking r memory d duty next callers
  let ownsWindow := r.marks.window.isNone
  let memory₁ := remember client [.creationStarted d] memory
  let callers₁ : List (Caller σ (Request κ) κ) := ⟨duty, next⟩ :: callers
  let m₁ : Machine σ (Request κ) κ :=
    ⟨r.begun d, memory₁, .code (.construct d ownsWindow) (w.factory d), callers₁⟩
  have hstep : m.step client = some m₁ := by
    rw [step_construct ho, hr.factory d hd]
  have hl : r.launch? m.deed = some (.construct d ownsWindow, w.build d) := by
    rw [deed_call, Registry.launch?, ho]
    rfl
  obtain ⟨hstep₁, hl₁⟩ := step_factory hr hd h hnew ownsWindow memory₁ callers₁
  have hb₁ : (missing names (begun ++ [d])).card ≤ bound := by
    have := card_missing_lt hn hnew
    omega
  obtain ⟨l, r₃, memory₃, ht, ho₃, hw₃, hv⟩ :
      w.Serves client base (begun ++ [d]) (d :: stack) shown (w.needs d)
        ⟨r.entered d (w.early d), remember client [.earlyDeferred d] memory₁,
          .code (.construct d ownsWindow) (w.seek (.done (.ok (w.object d))) (w.needs d)), callers₁⟩
        (.construct d ownsWindow) (.done (.ok (w.object d))) :=
    serves_seek hserve (fun k hk => hd.tail hk) hb₁ (h.begin (hr.fresh d hd) hnew).2 _
  let m₃ : Machine σ (Request κ) κ :=
    ⟨r₃, memory₃, .code (.construct d ownsWindow) (.done (.ok (w.object d))), callers₁⟩
  have ht₁ : m₁.Trail client (w.Answered client (m.duties.length + 1)) l m₃ :=
    .cons ⟨Nat.le_refl _, fun k factory hk => by cases hk⟩ hstep₁ hl₁ ht
  have ha : m.Answers client (.made (.ok (w.object d))) :=
    Trail.answers hstep (ht₁.mono fun x hx => hx.1) rfl (Nat.lt_succ_self _) rfl rfl
  have ht₂ := ht₁.mono (Q := w.Answered client m.duties.length) fun x hx =>
    ⟨Nat.le_of_succ_le hx.1, hx.2⟩
  have hend : m₃.Trail client (w.Answered client m.duties.length) [] _ :=
    .cons ⟨Nat.le_succ _, fun k factory hk => by cases hk⟩ rfl rfl (.stay _)
  have hall := Trail.cons (answered_asking hr hd h ha) hstep hl (ht₂.trans hend)
  rw [List.append_nil] at hall
  refine ⟨(.construct d ownsWindow, w.build d) :: l, _, _, hall,
    List.forall_mem_cons.2 ⟨rfl, ho₃⟩, ?_, ?_⟩
  · have hfin := hw₃.finish (hr.fresh d hd)
    rw [← h.marks, List.append_assoc] at hfin
    exact hfin
  · have hfirst := Visits.first hnew hv (.nil _)
    rw [List.append_assoc] at hfirst
    exact hfirst

theorem serves_begun (hr : w.Ready client root base) (hd : Reaches w.needs root d)
    (h : Weave w base begun stack shown r) (hb : d ∈ begun) :
    w.Serves client base begun stack shown [d] (w.asking r memory d duty next callers) duty
      (next (.made (.ok (w.object d)))) := by
  by_cases hs : d ∈ stack
  · by_cases he : d ∈ shown
    · exact serves_reply hr hd h hb (h.obtain_shown (hr.fresh d hd) hr.isOpen hs he)
    · exact serves_expose hr hd h hs he
  · exact serves_reply hr hd h hb (h.obtain_done (hr.fresh d hd) hb hs)

theorem servesUpTo {names : List Name} (hr : w.Ready client root base)
    (hn : ∀ n, Reaches w.needs root n → n ∈ names) (bound : Nat) :
    w.ServesUpTo client root base names bound := by
  induction bound with
  | zero =>
    intro begun stack shown r d memory duty next callers hb hd h
    apply serves_begun hr hd h
    by_cases hnew : d ∈ begun
    · exact hnew
    · have := card_missing_lt (hn d hd) hnew
      omega
  | succ bound ih =>
    intro begun stack shown r d memory duty next callers hb hd h
    by_cases hnew : d ∈ begun
    · exact serves_begun hr hd h hnew
    · exact serves_construct hr (hn d hd) ih hb hd h hnew

/-- When every factory leaves its early object first, a request for `root` has everything made
that `root` leads to, each object once and each shown early at most once. The names are filed in
the order of a depth-first search, every request on the way is answered by its object, and nothing
else in the registry has changed: what was in progress before is in progress still. -/
theorem circular_resolves {names : List Name} {m : Machine σ (Request κ) κ}
    (hr : w.Ready client root m.registry) (hn : ∀ n, Reaches w.needs root n → n ∈ names)
    (hm : m.activity = .code duty (.call (.obtain root (w.build root)) next)) :
    ∃ k,
      let m' := run client k m
      let made := started (launches client k m)
      m'.activity = .code duty (next (.made (.ok (w.object root)))) ∧
        m'.callers = m.callers ∧
        (∀ n, Reaches w.needs root n → m'.registry.store.finished[n]? = some (w.object n)) ∧
        (∀ n, ¬Reaches w.needs root n →
          m'.registry.store.finished[n]? = m.registry.store.finished[n]?) ∧
        made.Nodup ∧ (∀ n, n ∈ made ↔ Reaches w.needs root n) ∧
        (exposed (launches client k m)).Nodup ∧ (∀ x ∈ launches client k m, w.Owns x) ∧
        (∀ j < k, ∀ d factory, (run client j m).deed = .asked (.obtain d factory) →
          (run client j m).Answers client (.made (.ok (w.object d)))) ∧
        m'.registry = { m.registry with store := m'.registry.store } ∧
        m'.registry.store.early = m.registry.store.early ∧
        m'.registry.store.pending = m.registry.store.pending ∧
        Visits w.needs [] [root] made ∧
        m'.registry.store.names = m.registry.store.names ++ made := by
  obtain ⟨r, memory, activity, callers⟩ := m
  cases hm
  obtain ⟨l, r', memory', ht, ho, hw, hv⟩ :=
    servesUpTo hr hn _ memory duty next callers (Nat.le_refl _) .refl (Weave.refl r)
  obtain ⟨k, hk, hl, hall⟩ := ht.run
  rw [List.nil_append] at hw hv
  have hmem : ∀ n, n ∈ started l ↔ Reaches w.needs root n := fun n => hv.mem_iff
  refine ⟨k, ?_⟩
  simp only [hk, hl]
  refine ⟨trivial, trivial, ?_, ?_, hv.nodup List.nodup_nil, hmem, hw.shown_nodup,
    ho, fun j hj => (hall j hj).2, hw.frame, hw.early_eq, hw.pending_eq, hv,
    hw.names fun n hn => hr.fresh n ((hmem n).1 hn)⟩
  · intro n hn
    rw [hw.finished, if_pos ⟨(hmem n).2 hn, List.not_mem_nil⟩]
  · intro n hn
    rw [hw.finished, if_neg fun h => hn ((hmem n).1 h.1)]

end Requests

section Ring

open Machine

/-- Two objects that need each other, and others that need one of the two. -/
def ring : Wiring (Bool × Name) where
  needs n := if n = "a" then ["b"] else ["a"]
  object n := ⟨n.length, .str n⟩
  build n := (true, n)
  early n := (false, n)

def ringClient : Client Unit (Request (Bool × Name)) (Bool × Name) where
  factory label := ring.factory label.2
  early label := .done (ring.object label.2)
  disposer _ := .done (.ok ())
  hear _ memory := memory

def ringOuter : Machine Unit (Request (Bool × Name)) (Bool × Name) :=
  run ringClient 2 (.ofMain ({} : Settings).registry ()
    (.call (.obtain "outer" (true, "outer")) fun _ => .done ()))

theorem ring_reaches {n : Name} (h : Reaches ring.needs "a" n) : n ∈ ["a", "b"] := by
  induction h with
  | refl => exact List.mem_cons_self
  | @tail b c _ hc ih =>
    obtain rfl | hb := List.mem_cons.1 ih
    · exact List.mem_cons_of_mem _ hc
    · obtain rfl := List.mem_singleton.1 hb
      exact List.mem_cons.2 (.inl (List.mem_singleton.1 hc))

theorem ring_ready : ring.Ready ringClient "a" ringOuter.registry where
  isOpen := rfl
  fresh n hn := by
    have h := ring_reaches hn
    simp only [List.mem_cons, List.not_mem_nil, or_false] at h
    rcases h with rfl | rfl <;> constructor <;> decide
  factory n _ := rfl
  early n _ := rfl

theorem circular_resolves_ring :
    ring.Ready ringClient "a" ringOuter.registry ∧
      ∃ k,
        (∀ n, Reaches ring.needs "a" n →
          (run ringClient k ringOuter).registry.store.finished[n]? = some (ring.object n)) ∧
        (run ringClient k ringOuter).registry.marks = ringOuter.registry.marks := by
  have hr := ring_ready
  obtain ⟨k, -, -, hf, -, -, -, -, -, -, hm, -⟩ :=
    circular_resolves hr (fun n hn => ring_reaches hn) rfl
  exact ⟨hr, k, hf, by rw [hm]⟩

/-- The construction around the request is still in progress when it is answered. -/
theorem circular_inside_outer :
    ring.Ready ringClient "a" ringOuter.registry ∧
      (run ringClient 8 ringOuter).registry.store.finished["a"]? = some (ring.object "a") ∧
      (run ringClient 8 ringOuter).deed = .built "outer" true (.ok (ring.object "outer")) ∧
      (run ringClient 8 ringOuter).registry.marks.underway = ["outer"] :=
  ⟨ring_ready, by decide, rfl, by decide⟩

end Ring

end Wiring

end ObjectRegistry
