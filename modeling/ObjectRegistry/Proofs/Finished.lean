import ObjectRegistry.Proofs.Calls
import ObjectRegistry.Proofs.Obtain

namespace ObjectRegistry

variable {σ ρ κ : Type}

namespace Deed

def purges (n : Name) : Deed κ → Bool
  | asked (.store (.drop k)) => k = n
  | asked (.store .clear) => true
  | turned walk =>
    match walk.tasks with
    | .enter k :: _ => k = n ∧ k ∉ walk.visited
    | .sweep :: _ => true
    | _ => false
  | _ => false

def built? (n : Name) : Deed κ → Option Handle
  | built k _ (.ok h) => if k = n then some h else none
  | _ => none

def offered? (n : Name) : Deed κ → Option Handle
  | asked (.store (.install k h)) => if k = n ∧ n ≠ "" then some h else none
  | _ => none

end Deed

namespace Registry

variable (r : Registry κ) (n : Name)

theorem finished_install (k : Name) (h : Handle) :
    (Store.Op.update r.store (.install k h)).finished[n]? =
      r.store.finished[n]?.or (Deed.offered? n (.asked (.store (.install k h)) : Deed κ)) := by
  simp only [Store.Op.update, Store.install, Deed.offered?]
  by_cases hk : k = ""
  · have hn : ¬(k = n ∧ n ≠ "") := fun hkn => hkn.2 (hkn.1 ▸ hk)
    rw [if_pos hk, if_neg hn, Option.or_none]
    rfl
  rw [if_neg hk]
  cases hf : r.store.finished[k]? with
  | some existing =>
    have hkeep : (if existing.same h then Except.ok r.store
        else .error (Fault.nameTaken k)).toOption.getD r.store = r.store := by
      split <;> rfl
    simp only [hkeep]
    by_cases hkn : k = n
    · rw [← hkn, hf, Option.some_or]
    · rw [if_neg (mt And.left hkn), Option.or_none]
  | none =>
    change (r.store.finished.insert k h)[n]? = _
    rw [NameMap.getElem?_insert]
    by_cases hkn : k = n
    · subst hkn
      rw [if_pos rfl, if_pos ⟨rfl, hk⟩, hf, Option.none_or]
    · rw [if_neg hkn, if_neg (mt And.left hkn), Option.or_none]

theorem finished_find (k : Name) (purpose : Purpose) :
    (r.find k purpose).registry.store.finished = r.store.finished := by
  have h := r.finds k purpose
  generalize r.find k purpose = o at h
  cases h <;> rfl

theorem finished_obtain (k : Name) (factory : κ) :
    (r.obtain k factory).registry.store.finished = r.store.finished := by
  have h := r.obtains k factory
  generalize r.obtain k factory = o at h
  cases h <;> rfl

theorem finished_defer (k : Name) (early : κ) :
    (r.defer k early).registry.store.finished = r.store.finished := by
  obtain ⟨a, ha⟩ | ⟨-, -, ha⟩ := r.defer_inv k early <;> rw [ha] <;> rfl

theorem finished_onDestroy (k : Name) (callback : κ) :
    (r.onDestroy k callback).registry.store.finished = r.store.finished := by
  obtain ⟨a, disposers, ha⟩ := r.onDestroy_inv k callback
  rw [ha]
  rfl

theorem finished_start (op : Op κ) :
    (r.start op).registry.store.finished[n]? =
      if (Deed.asked op).purges n then none
      else r.store.finished[n]?.or ((Deed.asked op).offered? n) := by
  have keep {s : Registry κ} (h : s.store.finished = r.store.finished) :
      s.store.finished[n]? = r.store.finished[n]?.or none := by rw [h, Option.or_none]
  cases op with
  | links op | marks op | edges op | hasDisposer k | disposerNames | describe part | destroy k
  | destroyAll => exact keep rfl
  | find k => exact keep (finished_find r k .find)
  | findAs given k kind => exact keep (finished_find r k (.findAs given kind))
  | obtain k factory => exact keep (finished_obtain r k factory)
  | defer k early => exact keep (finished_defer r k early)
  | onDestroy k callback => exact keep (finished_onDestroy r k callback)
  | store op =>
    cases op with
    | holds k | size | names | close | isClosed => exact keep rfl
    | install k h => exact finished_install r n k h
    | clear => exact NameMap.getElem?_empty n
    | drop k =>
      change (r.store.finished.erase k)[n]? = if decide (k = n) = true then none else _
      simp only [NameMap.getElem?_erase, decide_eq_true_eq, Deed.offered?, Option.or_none]

theorem finished_turn (walk : Walk κ) :
    ((walk.turn r).registry r).store.finished[n]? =
      if (Deed.turned walk).purges n then none else r.store.finished[n]? := by
  obtain ⟨tasks, visited, report⟩ := walk
  cases tasks with
  | nil => rfl
  | cons task rest =>
    cases task with
    | start k | contained k | forget k => rfl
    | dispose k callback claimed => cases callback <;> rfl
    | sweep => exact NameMap.getElem?_empty n
    | enter k =>
      by_cases hk : k ∈ visited
      · simp only [Walk.turn, hk, Turn.registry, Deed.purges, not_true_eq_false, and_false,
          decide_false, Bool.false_eq_true, ↓reduceIte]
      · simp only [Walk.turn, hk, Turn.registry, Deed.purges, claim, Store.drop,
          NameMap.getElem?_erase, not_false_eq_true, and_true, decide_eq_true_eq, ↓reduceIte]

theorem finished_after (d : Deed κ) :
    (r.after d).store.finished[n]? =
      if d.purges n then none
      else (d.built? n).or (r.store.finished[n]?.or (d.offered? n)) := by
  cases d with
  | idle | withheld | disposed | showed k purpose h | brokeOff k ownsWindow p =>
    exact Option.or_none.symm
  | asked op => exact finished_start r n op
  | turned walk =>
    rw [after, finished_turn]
    simp only [Deed.built?, Deed.offered?, Option.none_or, Option.or_none]
  | built k ownsWindow outcome =>
    cases outcome with
    | error fault => exact Option.or_none.symm
    | ok h =>
      change (r.store.finished.insert k h)[n]? = (if k = n then some h else none).or _
      rw [NameMap.getElem?_insert]
      split
      · rfl
      · rw [Option.none_or]
        exact Option.or_none.symm

theorem built?_eq_some {d : Deed κ} {h : Handle} (hd : d.built? n = some h) :
    ∃ ownsWindow, d = .built n ownsWindow (.ok h) := by
  cases d with
  | built k ownsWindow outcome =>
    cases outcome with
    | error fault => cases hd
    | ok g =>
      obtain ⟨rfl, hg⟩ := Option.ite_none_right_eq_some.1 hd
      cases hg
      exact ⟨ownsWindow, rfl⟩
  | _ => cases hd

theorem built?_le_ended (d : Deed κ) :
    (d.built? n).toList.length ≤ (d.ends?.toList.filterMap Duty.making?).count n := by
  cases hb : d.built? n with
  | none => exact Nat.zero_le _
  | some h =>
    obtain ⟨ownsWindow, rfl⟩ := built?_eq_some n hb
    exact Nat.le_of_eq List.count_singleton_self.symm

end Registry

namespace Machine

variable [Language ρ κ] {client : Client σ ρ κ} {m m' : Machine σ ρ κ} {n : Name} {o : Handle}

/-- The objects with which constructions of `n` end in the first `k` steps. -/
def rebuilt (client : Client σ ρ κ) (n : Name) (k : Nat) (m : Machine σ ρ κ) : List Handle :=
  (deeds client k m).filterMap (Deed.built? n)

theorem finished_step (h : m.step client = some m')
    (ho : m.registry.store.finished[n]? = some o) (hp : m.deed.purges n = false) :
    m'.registry.store.finished[n]? = some ((m.deed.built? n).getD o) := by
  rw [registry_step h, Registry.finished_after, hp, ho, Option.some_or]
  cases m.deed.built? n <;> rfl

theorem making_step_of_finished (h : m.step client = some m')
    (ho : m.registry.store.finished[n]? = some o) :
    (m.deed.built? n).toList.length + m'.making.count n ≤ m.making.count n := by
  have hb := Registry.built?_le_ended n m.deed
  have hl :
      (((m.registry.launch? m.deed).map (·.1)).toList.filterMap Duty.making?).count n = 0 := by
    apply List.count_eq_zero.2
    intro hn
    obtain ⟨ownsWindow, factory, hl⟩ := Registry.launch?_of_making hn
    have hf := (Registry.launch?_construct hl).2.2.1
    rw [ho] at hf
    cases hf
  have hm := congrArg (List.count n) (making_step h)
  rw [List.count_append, List.count_append] at hm
  omega

theorem finished_run {k : Nat} (ho : m.registry.store.finished[n]? = some o)
    (hp : ∀ d ∈ deeds client k m, d.purges n = false) :
    (run client k m).registry.store.finished[n]? = some ((rebuilt client n k m).getLastD o) ∧
      (rebuilt client n k m).length + (run client k m).making.count n ≤ m.making.count n := by
  induction k generalizing m o with
  | zero => exact ⟨ho, Nat.le_of_eq (Nat.zero_add _)⟩
  | succ k ih =>
    cases h : m.step client with
    | none =>
      rw [run_of_stop h, rebuilt, deeds_of_stop h]
      exact ⟨ho, Nat.le_of_eq (Nat.zero_add _)⟩
    | some m' =>
      rw [deeds_succ h] at hp
      have ho' := finished_step h ho (hp _ List.mem_cons_self)
      have hm := making_step_of_finished h ho
      obtain ⟨hf, hc⟩ := ih ho' fun d hd => hp d (List.mem_cons_of_mem _ hd)
      rw [run_succ_of_step h, rebuilt, deeds_succ h]
      cases hb : m.deed.built? n with
      | none =>
        rw [hb] at hf hm
        rw [List.filterMap_cons_none hb]
        simp only [Option.toList_none, List.length_nil, Nat.zero_add] at hm
        exact ⟨hf, Nat.le_trans hc hm⟩
      | some g =>
        rw [hb] at hf hm
        rw [List.filterMap_cons_some hb, List.getLastD_cons, List.length_cons]
        refine ⟨hf, ?_⟩
        simp only [Option.toList_some, List.length_singleton, rebuilt] at hm hc
        omega

theorem nameless_of_reachable (hm : m.Reachable client) :
    m.registry.store.finished[""]? = none ∧ "" ∉ m.making := by
  apply hm.keeps
  · intro settings memory main
    exact ⟨NameMap.getElem?_empty "", List.not_mem_nil⟩
  rintro m m' ⟨hf, hn⟩ h
  constructor
  · have hb : m.deed.built? "" = none := by
      cases hb : m.deed.built? "" with
      | none => rfl
      | some g =>
        obtain ⟨ownsWindow, hd⟩ := Registry.built?_eq_some "" hb
        have he : m.deed.ends? = some (.construct "" ownsWindow) := by rw [hd, Deed.ends?]
        apply absurd _ hn
        rw [making, duties_of_ends h he]
        exact List.mem_cons_self
    have ho : m.deed.offered? "" = none := by
      unfold Deed.offered?
      split
      · exact if_neg fun hk => hk.2 rfl
      · rfl
    rw [registry_step h, Registry.finished_after, hf, hb, ho]
    split <;> rfl
  · intro hn'
    have hmem := List.mem_append_right (m.deed.ends?.toList.filterMap Duty.making?) hn'
    rw [making_step h] at hmem
    obtain hl | hm := List.mem_append.1 hmem
    · obtain ⟨ownsWindow, factory, hl⟩ := Registry.launch?_of_making hl
      exact (Registry.launch?_construct hl).2.1 rfl
    · exact hn hm

/-- An object that is finished stays until it is taken away, unless a construction of its name was
in progress all the while: when that ends, its object takes the place. Each of these constructions
does so at most once, and all requests for the name are answered by the object that is there. -/
theorem finished_until_purged (hm : m.Reachable client)
    (ho : m.registry.store.finished[n]? = some o) (k : Nat)
    (hp : ∀ d ∈ deeds client k m, d.purges n = false) :
    let m' := run client k m
    let h := (rebuilt client n k m).getLastD o
    m'.registry.store.finished[n]? = some h ∧
      (rebuilt client n k m).length + m'.making.count n ≤ m.making.count n ∧
      (n ∉ m.making → h = o) ∧
      (m'.deed = .asked (.find n) → m'.Answers client (.object (some h))) ∧
      (∀ given kind, m'.deed = .asked (.findAs given n kind) →
        m'.Answers client (.object (h.downcast? kind))) ∧
      ∀ factory, m'.deed = .asked (.obtain n factory) → m'.Answers client (.made (.ok h)) := by
  intro m' h
  obtain ⟨hf, hc⟩ := finished_run ho hp
  have hn : n ≠ "" := by
    rintro rfl
    rw [(nameless_of_reachable hm).1] at ho
    cases ho
  refine ⟨hf, hc, fun hmk => ?_, fun hd => answers_of_start hd (Registry.find_finished hf),
    fun given kind hd => answers_of_start hd (Registry.find_finished hf),
    fun factory hd => answers_of_start hd (Registry.obtain_finished hn hf)⟩
  have hcount := List.count_eq_zero.2 hmk
  have hlen : (rebuilt client n k m).length = 0 := by omega
  simp only [h, List.length_eq_zero_iff.1 hlen, List.getLastD_nil]

def usurper : Client Unit (Request Unit) Unit where
  factory _ := do
    let _ ← .ask (.install "n" ⟨0, .unit⟩)
    return .ok ⟨1, .unit⟩
  early _ := return ⟨2, .unit⟩
  disposer _ := return .ok ()
  hear _ memory := memory

def usurped : Machine Unit (Request Unit) Unit :=
  run usurper 2 (.ofMain ({} : Settings).registry () (do
    let _ ← .ask (.obtain "n" ())
    let _ ← .ask (.find "n")))

theorem finished_until_purged_usurped :
    usurped.registry.store.finished["n"]? = some ⟨0, .unit⟩ ∧
      (rebuilt usurper "n" 1 usurped).length + (run usurper 1 usurped).making.count "n" ≤ 1 ∧
      (run usurper 1 usurped).Answers usurper (.object (some ⟨1, .unit⟩)) := by
  have hr : usurped.Reachable usurper := ⟨{}, (), _, 2, rfl⟩
  have ho : usurped.registry.store.finished["n"]? = some ⟨0, .unit⟩ := by decide
  have h := finished_until_purged hr ho 1 (by decide)
  exact ⟨ho, h.2.1, h.2.2.2.1 rfl⟩

/-- A finished object is replaced although nothing took it away. -/
theorem finished_replaced :
    usurped.registry.store.finished["n"]? = some ⟨0, .unit⟩ ∧
      (∀ d ∈ deeds usurper 1 usurped, d.purges "n" = false) ∧
      (run usurper 1 usurped).registry.store.finished["n"]? = some ⟨1, .unit⟩ := by
  decide

end Machine

end ObjectRegistry
