import ObjectRegistry.Proofs.Nesting
import ObjectRegistry.Proofs.Tiers

namespace ObjectRegistry

variable {σ ρ κ : Type}

namespace Deed

/-- Whether a deed ends the time for which an early object of `n` is shown. Then the construction of
`n` ends, `n` is filed anew or taken away, or another callback ends that makes its early object. -/
def ousts (n : Name) : Deed κ → Bool
  | built k _ _ | brokeOff k _ _ | showed k _ _ => k = n
  | asked (.defer k _) | asked (.store (.install k _)) => k = n
  | d => d.purges n

variable {n : Name} {d : Deed κ}

theorem built?_of_not_ousts (h : d.ousts n = false) : d.built? n = none := by
  cases d with
  | built k ownsWindow outcome =>
    cases outcome with
    | error fault => rfl
    | ok object => exact if_neg (of_decide_eq_false h)
  | _ => rfl

theorem offered?_of_not_ousts (h : d.ousts n = false) : d.offered? n = none := by
  cases d with
  | asked op =>
    cases op with
    | store op =>
      cases op with
      | install k object => exact if_neg fun hk => of_decide_eq_false h hk.1
      | _ => rfl
    | _ => rfl
  | _ => rfl

theorem ends?_of_not_ousts (h : d.ousts n = false) (ownsWindow : Bool) :
    d.ends? ≠ some (.construct n ownsWindow) := by
  intro he
  obtain ⟨outcome, rfl⟩ | ⟨p, rfl⟩ := ends?_construct he <;> simp [ousts] at h

end Deed

namespace Store

variable {s : Store κ} {n k : Name}

theorem mem_file_iff : n ∈ (s.file k).filed ↔ n ∈ s.filed ∨ n = k := by
  simp only [file]
  split
  · case isTrue hk =>
    refine ⟨.inl, fun h => h.elim id ?_⟩
    rintro rfl
    exact hk
  · simp

theorem update_install (s : Store κ) (k : Name) (object : Handle) :
    Op.update s (.install k object) = s ∨ Op.update s (.install k object) = s.finish k object := by
  simp only [Op.update, install]
  split
  · exact .inl rfl
  · split
    · exact .inr rfl
    · split <;> exact .inl rfl

def AgreesOn (n : Name) (s s' : Store κ) : Prop :=
  s'.early[n]? = s.early[n]? ∧ (n ∈ s'.filed ↔ n ∈ s.filed)

namespace AgreesOn

theorem rfl : s.AgreesOn n s := ⟨Eq.refl _, Iff.refl _⟩

theorem finish {object : Handle} (hk : ¬k = n) : s.AgreesOn n (s.finish k object) := by
  refine ⟨?_, mem_file_iff.trans (or_iff_left (Ne.symm hk))⟩
  simp [Store.finish, file, NameMap.getElem?_erase, hk]

theorem defer {early : κ} (hk : ¬k = n) : s.AgreesOn n (s.defer k early) := by
  refine ⟨?_, mem_file_iff.trans (or_iff_left (Ne.symm hk))⟩
  simp [Store.defer, file, NameMap.getElem?_erase, hk]

theorem expose {object : Handle} (hk : ¬k = n) : s.AgreesOn n (s.expose k object) := by
  refine ⟨?_, Iff.refl _⟩
  simp [Store.expose, NameMap.getElem?_insert, hk]

theorem drop (hk : ¬k = n) : s.AgreesOn n (s.drop k) := by
  refine ⟨?_, List.mem_erase_of_ne (Ne.symm hk)⟩
  simp [Store.drop, NameMap.getElem?_erase, hk]

theorem discard (hk : ¬k = n) : s.AgreesOn n (s.discard k) := by
  simp only [AgreesOn, Store.discard, NameMap.getElem?_erase, if_neg hk, true_and]
  split
  · rfl
  · exact List.mem_erase_of_ne (Ne.symm hk)

end AgreesOn

end Store

namespace Registry

variable {r : Registry κ} {n : Name} {d : Deed κ}

theorem launch?_expose {purpose : Purpose} {early : κ}
    (h : r.launch? d = some (.expose n purpose, early)) :
    (∃ op, d = .asked op) ∧ r.marks.isUnderway n = true ∧ r.store.finished[n]? = none ∧
      r.store.pending[n]? = some early ∧
      r.after d = { r with store := r.store.takePending n } := by
  have found {k : Name} {reason : Purpose} {o : Outset κ} (ho : Finds r k reason o)
      (hl : o.launch? = some (.expose n purpose, early)) :
      r.marks.isUnderway n = true ∧ r.store.finished[n]? = none ∧
        r.store.pending[n]? = some early ∧
        o.registry = { r with store := r.store.takePending n } := by
    cases ho with
    | pending hf hu he hp =>
      cases hl
      exact ⟨hu, hf, hp, rfl⟩
    | _ => cases hl
  cases d with
  | asked op =>
    refine ⟨⟨op, rfl⟩, ?_⟩
    cases op with
    | find k => exact found (r.finds k .find) h
    | findAs given k kind => exact found (r.finds k (.findAs given kind)) h
    | obtain k factory =>
      change (r.obtain k factory).launch? = _ at h
      change _ ∧ _ ∧ _ ∧ (r.obtain k factory).registry = _
      have ho := r.obtains k factory
      generalize r.obtain k factory = o at ho h
      cases ho with
      | pending hn hf hc hu he hp =>
        cases h
        exact ⟨hu, hf, hp, rfl⟩
      | _ => cases h
    | defer k callback =>
      obtain ⟨a, ha⟩ | ⟨-, -, ha⟩ := r.defer_inv k callback <;>
        rw [launch?, start, ha] at h <;> cases h
    | onDestroy k callback =>
      obtain ⟨a, disposers, ha⟩ := r.onDestroy_inv k callback
      rw [launch?, start, ha] at h
      cases h
    | _ => cases h
  | turned walk =>
    simp only [launch?] at h
    split at h <;> cases h
  | _ => cases h

theorem pending_inv {early : κ} (h : (r.after d).store.pending[n]? = some early) :
    r.store.pending[n]? = some early ∧
        (∀ purpose callback, r.launch? d ≠ some (.expose n purpose, callback)) ∨
      d = .asked (.defer n early) ∧ r.reply? d = some (.settled (.ok ())) := by
  have hlaunch : ∀ purpose callback, r.launch? d ≠ some (.expose n purpose, callback) := by
    intro purpose callback hl
    rw [(launch?_expose hl).2.2.2.2] at h
    simp [Store.takePending] at h
  have hr := r.refiles d
  generalize hs : (r.after d).store = s at h hr
  cases hr with
  | kept | closed | showed => exact .inl ⟨h, hlaunch⟩
  | cleared => simp [Store.clear] at h
  | installed | built =>
    simp only [Store.finish, Store.file, NameMap.getElem?_erase, Option.ite_none_left_eq_some] at h
    exact .inl ⟨h.2, hlaunch⟩
  | taken | dropped | discarded =>
    simp only [Store.takePending, Store.drop, Store.discard, NameMap.getElem?_erase,
      Option.ite_none_left_eq_some] at h
    exact .inl ⟨h.2, hlaunch⟩
  | @deferred k callback hf =>
    rw [after, start] at hs
    obtain ⟨a, ha⟩ | ⟨-, -, ha⟩ := r.defer_inv k callback
    · rw [ha] at hs
      rw [← hs] at h
      exact .inl ⟨h, hlaunch⟩
    · simp only [Store.defer, Store.file, NameMap.getElem?_insert] at h
      split at h
      · case isTrue hk =>
        cases h
        subst hk
        exact .inr ⟨rfl, by simp only [reply?, start, ha, Outset.reply?]⟩
      · exact .inl ⟨h, hlaunch⟩

theorem agreesOn_after (hd : d.ousts n = false) : r.store.AgreesOn n (r.after d).store := by
  have found {k : Name} {purpose : Purpose} {o : Outset κ} (ho : Finds r k purpose o) :
      r.store.AgreesOn n o.registry.store := by
    cases ho <;> exact .rfl
  cases d with
  | idle | withheld | disposed => exact .rfl
  | built k ownsWindow outcome =>
    cases outcome with
    | error fault => exact .discard (of_decide_eq_false hd)
    | ok object => exact .finish (of_decide_eq_false hd)
  | brokeOff k ownsWindow p => exact .discard (of_decide_eq_false hd)
  | showed k purpose object => exact .expose (of_decide_eq_false hd)
  | turned walk =>
    obtain ⟨tasks, visited, report⟩ := walk
    cases tasks with
    | nil => exact .rfl
    | cons task rest =>
      cases task with
      | start k | contained k | forget k => exact .rfl
      | dispose k callback claimed => cases callback <;> exact .rfl
      | sweep => cases hd
      | enter k =>
        simp only [after, Walk.turn]
        split
        · exact .rfl
        · case isFalse hk => exact .drop fun hn => of_decide_eq_false hd ⟨hn, hk⟩
  | asked op =>
    cases op with
    | links op | marks op | edges op | hasDisposer k | disposerNames | describe part | destroy k
    | destroyAll => exact .rfl
    | find k => exact found (r.finds k .find)
    | findAs given k kind => exact found (r.finds k (.findAs given kind))
    | obtain k factory =>
      change r.store.AgreesOn n (r.obtain k factory).registry.store
      have ho := r.obtains k factory
      generalize r.obtain k factory = o at ho
      cases ho <;> exact .rfl
    | defer k early =>
      rw [after, start]
      obtain ⟨a, ha⟩ | ⟨-, -, ha⟩ := r.defer_inv k early <;> rw [ha]
      · exact .rfl
      · exact .defer (of_decide_eq_false hd)
    | onDestroy k callback =>
      obtain ⟨a, disposers, ha⟩ := r.onDestroy_inv k callback
      rw [after, start, ha]
      exact .rfl
    | store op =>
      cases op with
      | holds k | size | names | close | isClosed => exact .rfl
      | clear => cases hd
      | drop k => exact .drop (of_decide_eq_false hd)
      | install k object =>
        change r.store.AgreesOn n (Store.Op.update r.store (.install k object))
        obtain h | h := Store.update_install r.store k object <;> rw [h]
        · exact .rfl
        · exact .finish (of_decide_eq_false hd)

theorem find_shown {e : Handle} {purpose : Purpose}
    (hf : r.store.finished[n]? = none) (hu : r.marks.isUnderway n = true)
    (he : r.store.early[n]? = some e) :
    r.find n purpose = .reply (purpose.answer e) r (purpose.events n e) := by
  simp [find, findEarly, hf, hu, he]

end Registry

namespace Machine

section Starts

variable [Language ρ κ] {client : Client σ ρ κ} {m : Machine σ ρ κ} {n : Name} {early : κ}

/-- The next step has the callback accepted that is to make the early object of `n`. -/
def Accepts (n : Name) (early : κ) (m : Machine σ ρ κ) : Prop :=
  m.deed = .asked (.defer n early) ∧ m.registry.reply? m.deed = some (.settled (.ok ()))

/-- The next step starts a callback that makes the early object of `n`. -/
def Exposes (n : Name) (m : Machine σ ρ κ) : Prop :=
  ∃ purpose early, m.registry.launch? m.deed = some (.expose n purpose, early)

theorem not_exposes_of_stop (h : m.step client = none) : ¬m.Exposes n := by
  rintro ⟨purpose, early, hl⟩
  obtain ⟨op, hd⟩ := (Registry.launch?_expose hl).1
  obtain ⟨m', h'⟩ := step_of_asked client hd
  rw [h] at h'
  cases h'

theorem accepted_of_pending (h₀ : m.registry.store.pending[n]? = none) {k : Nat}
    (h : (run client k m).registry.store.pending[n]? = some early) :
    ∃ i < k, (run client i m).Accepts n early ∧
      ∀ j, i < j → j < k → ¬(run client j m).Exposes n := by
  induction k with
  | zero => simp [h₀] at h
  | succ k ih =>
    have hlast {i : Nat} (hbefore : ∀ j, i < j → j < k → ¬(run client j m).Exposes n)
        (hk : ¬(run client k m).Exposes n) :
        ∀ j, i < j → j < k + 1 → ¬(run client j m).Exposes n := by
      intro j hij hj
      obtain hj | rfl := Nat.lt_succ_iff_lt_or_eq.1 hj
      · exact hbefore j hij hj
      · exact hk
    rw [run_succ] at h
    cases hs : (run client k m).step client with
    | none =>
      rw [hs] at h
      obtain ⟨i, hi, ha, hbefore⟩ := ih h
      exact ⟨i, by omega, ha, hlast hbefore (not_exposes_of_stop hs)⟩
    | some m' =>
      rw [hs, Option.getD_some, registry_step hs] at h
      obtain ⟨hp, hl⟩ | ha := Registry.pending_inv h
      · obtain ⟨i, hi, ha, hbefore⟩ := ih hp
        exact ⟨i, by omega, ha, hlast hbefore fun ⟨purpose, callback, h⟩ => hl purpose callback h⟩
      · exact ⟨k, by omega, ha, fun j hij hj => by omega⟩

end Starts

section Shown

variable [Language ρ κ] {client : Client σ ρ κ} {m m' : Machine σ ρ κ} {n : Name} {e : Handle}

theorem mem_making_step (h : m.step client = some m') (hn : n ∈ m.making)
    (hd : ∀ ownsWindow, m.deed.ends? ≠ some (.construct n ownsWindow)) : n ∈ m'.making := by
  have hmem : n ∈ m.deed.ends?.toList.filterMap Duty.making? ++ m'.making := by
    rw [making_step h]
    exact List.mem_append_right _ hn
  refine (List.mem_append.1 hmem).resolve_left fun hends => ?_
  obtain ⟨duty, hduty, hk⟩ := List.mem_filterMap.1 hends
  cases duty with
  | construct k ownsWindow =>
    cases hk
    exact hd ownsWindow (Option.mem_toList.1 hduty)
  | _ => cases hk

structure Shows (n : Name) (e : Handle) (m : Machine σ ρ κ) : Prop where
  making : n ∈ m.making
  finished : m.registry.store.finished[n]? = none
  early : m.registry.store.early[n]? = some e

theorem unfinished_step (h : m.step client = some m') (hf : m.registry.store.finished[n]? = none)
    (hb : m.deed.built? n = none) (ho : m.deed.offered? n = none) :
    m'.registry.store.finished[n]? = none := by
  rw [registry_step h, Registry.finished_after, hf, hb, ho]
  split <;> rfl

theorem Shows.step (hm : m.Shows n e) (h : m.step client = some m')
    (hd : m.deed.ousts n = false) : m'.Shows n e where
  making := mem_making_step h hm.making (Deed.ends?_of_not_ousts hd)
  finished :=
    unfinished_step h hm.finished (Deed.built?_of_not_ousts hd) (Deed.offered?_of_not_ousts hd)
  early := by
    rw [registry_step h, (Registry.agreesOn_after hd).1]
    exact hm.early

theorem Shows.run (hm : m.Shows n e) {k : Nat}
    (hd : ∀ j < k, (Machine.run client j m).deed.ousts n = false) :
    (Machine.run client k m).Shows n e :=
  run_keeps hm fun j hj _ hs h => hs.step h (hd j hj)

end Shown

variable {client : Client σ (Request κ) κ} {m m' : Machine σ (Request κ) κ} {n : Name} {e : Handle}

/-- While the callback runs that makes the early object of `n`, a construction of `n` is in progress
below it, so `n` becomes finished only if someone brings an object. -/
theorem unfinished_while_exposing {purpose : Purpose} {early : κ} {k : Nat} {a : Answer}
    (hl : m.registry.launch? m.deed = some (.expose n purpose, early))
    (ha : m.AnswersAfter client k a)
    (hn : ∀ j ≤ k, (run client j m).registry.Nests (run client j m).duties)
    (hi : ∀ j, 0 < j → j < k → (run client j m).deed.offered? n = none) :
    (run client k m).registry.store.finished[n]? = none := by
  obtain ⟨⟨op, hop⟩, hu, hf, -, hafter⟩ := Registry.launch?_expose hl
  obtain ⟨m₁, h₁⟩ := step_of_asked client hop
  have hmaking : n ∈ m.making := (hn 0 (Nat.zero_le k)).isUnderway.1 hu
  have hframe : ∀ j ≤ k, 0 < j →
      ∃ above, (run client j m).duties = above ++ .expose n purpose :: m.duties := by
    intro j hj hpos
    obtain ⟨i, rfl⟩ := Nat.exists_eq_succ_of_ne_zero (Nat.ne_of_gt hpos)
    rw [run_succ_of_step h₁]
    refine frame_run Registry.reply?_of_ends_expose (duties_of_launch h₁ hl) fun i' hi' => ?_
    rw [← run_succ_of_step h₁]
    exact ha.2 (i' + 1) (by omega)
  have hkeep : ∀ j ≤ k, (run client j m).registry.store.finished[n]? = none := by
    intro j
    induction j with
    | zero => exact fun _ => hf
    | succ j ih =>
      intro hj
      rw [run_succ]
      cases h : (run client j m).step client with
      | none => exact ih (by omega)
      | some m' =>
        obtain rfl | hpos := Nat.eq_zero_or_pos j
        · rw [Option.getD_some, registry_step h, run_zero, hafter]
          exact hf
        · refine unfinished_step h (ih (by omega)) ?_ (hi j hpos hj)
          -- A construction of `n` that ended here would be above the one in progress.
          obtain ⟨above, hab⟩ := hframe j (by omega) hpos
          cases hb : (run client j m).deed.built? n with
          | none => rfl
          | some object =>
            obtain ⟨ownsWindow, hd⟩ := Registry.built?_eq_some n hb
            have hd : (run client j m).deed.ends? = some (.construct n ownsWindow) := by
              rw [hd, Deed.ends?]
            have hnested := (hn j (by omega)).nested
            rw [duties_of_ends h hd] at hab hnested
            obtain - | ⟨top, above⟩ := above
            · cases hab
            · have hbelow : m'.duties = above ++ .expose n purpose :: m.duties :=
                (List.cons.inj hab).2
              refine absurd ?_ hnested.1.1
              rw [hbelow, List.filterMap_append]
              exact List.mem_append_right _ hmaking
  exact hkeep k (Nat.le_refl k)

theorem shows_of_showed {purpose : Purpose} (hd : m.deed = .showed n purpose e)
    (h : m.step client = some m') (hn : m.registry.Nests m.duties)
    (hf : m.registry.store.finished[n]? = none) : m'.Shows n e where
  making := by
    have he : m.deed.ends? = some (.expose n purpose) := by rw [hd, Deed.ends?]
    rw [duties_of_ends h he] at hn
    exact hn.nested.1
  finished := by
    rw [registry_step h, hd]
    exact hf
  early := by
    rw [registry_step h, hd]
    change (m.registry.store.early.insert n e)[n]? = some e
    rw [NameMap.getElem?_insert, if_pos rfl]

/-- In a run that exempts no name, each start of a callback that makes an early object uses up an
acceptance of its own. If one ends with an object and nobody has filed its name meanwhile, then this
object is what everyone is given who asks for the name, until the construction of the name ends, the
name is filed anew, taken away or swept, or another callback ends that was making its early
object. -/
theorem shown_until_ousted {settings : Settings} {memory : σ} {main : Program σ (Request κ) Unit}
    {l : Nat} (ht : ∀ d ∈ deeds client l (.ofMain settings.registry memory main),
      d.exempts = false) :
    let m := fun k => run client k (.ofMain settings.registry memory main)
    (∀ j n purpose early, (m j).registry.launch? (m j).deed = some (.expose n purpose, early) →
      ∃ i < j, (m i).Accepts n early ∧ ∀ x, i < x → x < j → ¬(m x).Exposes n) ∧
    ∀ i k n purpose early a e, i + k < l →
      (m i).registry.launch? (m i).deed = some (.expose n purpose, early) →
      (m i).AnswersAfter client k a → (m (i + k)).deed = .showed n purpose e →
      (∀ j, i < j → j < i + k → (m j).deed.offered? n = none) →
      (∀ j, i + k < j → j < l → (m j).deed.ousts n = false) →
      ((m l).deed = .asked (.find n) → (m l).AnswersAfter client 0 (.object (some e))) ∧
        (∀ given kind, (m l).deed = .asked (.findAs given n kind) →
          (m l).AnswersAfter client 0 (.object (e.downcast? kind))) ∧
        ∀ factory, (m l).deed = .asked (.obtain n factory) →
          (m l).registry.store.closed = false →
          (m l).AnswersAfter client 0 (.made (.ok e)) ∧
            (m l).registry.launch? (m l).deed = none := by
  intro m
  constructor
  · intro j n purpose early hl
    have hp : (m j).registry.store.pending[n]? = some early := (Registry.launch?_expose hl).2.2.2.1
    exact accepted_of_pending (NameMap.getElem?_empty n) hp
  intro i k n purpose early a e hk hl ha hd hquiet hkept
  have hr (j : Nat) : (m j).Reachable client := ⟨settings, memory, main, j, rfl⟩
  have hn (j : Nat) (hj : j ≤ l) : (m j).registry.Nests (m j).duties :=
    nests_run fun d hd => ht d (mem_deeds_of_le hj hd)
  have hrun (i j : Nat) : m (i + j) = run client j (m i) := run_add i j _
  have hf : (m (i + k)).registry.store.finished[n]? = none := by
    rw [hrun]
    refine unfinished_while_exposing hl ha (fun j hj => ?_) fun j hpos hj => ?_ <;> rw [← hrun]
    · exact hn (i + j) (by omega)
    · exact hquiet (i + j) (by omega) (by omega)
  obtain ⟨m', hs, -⟩ := gives_inv ha.1
  rw [← hrun] at hs
  have hstart : m'.Shows n e := shows_of_showed hd hs (hn _ (by omega)) hf
  have hshows : (m l).Shows n e := by
    obtain ⟨d, rfl⟩ := Nat.exists_eq_add_of_lt hk
    have hnext : m (i + k + 1) = m' := (hrun (i + k) 1).trans (run_succ_of_step hs 0)
    rw [Nat.add_right_comm, hrun, hnext]
    refine hstart.run fun j hj => ?_
    rw [← hnext, ← hrun]
    exact hkept _ (by omega) (by omega)
  have hu : (m l).registry.marks.isUnderway n = true :=
    (hn l (Nat.le_refl l)).isUnderway.2 hshows.making
  have hname : n ≠ "" := by
    rintro rfl
    exact (nameless_of_reachable (hr l)).2 hshows.making
  refine ⟨fun hd => ?_, fun given kind hd => ?_, fun factory hd hc => ?_⟩
  · exact answersAfter_of_start hd (Registry.find_shown hshows.finished hu hshows.early)
  · exact answersAfter_of_start hd (Registry.find_shown hshows.finished hu hshows.early)
  · have hobtain : (m l).registry.obtain n factory =
        .reply (.made (.ok e)) (m l).registry [.earlyFound n] :=
      Registry.obtain_early hname hshows.finished hc hu hshows.early
    refine ⟨answersAfter_of_start hd hobtain, ?_⟩
    rw [hd, Registry.launch?, Registry.start, hobtain]
    rfl

def building (client : Client Unit (Request κ) κ) (factory : κ) (k : Nat) :
    Machine Unit (Request κ) κ :=
  run client k (.ofMain ({} : Settings).registry () (do
    let _ ← .ask (.obtain "n" factory)))

/-- The factory of `n` looks for its object, has `k` made, and looks for the object again. The
factory of `k` asks for `n` and then fails. The callback that makes the early object of `n` looks
for `k`. -/
def bustle : Client Unit (Request Bool) Bool where
  factory whole :=
    if whole then do
      let _ ← .ask (.defer "n" true)
      let _ ← .ask (.find "n")
      let _ ← .ask (.obtain "k" false)
      let _ ← .ask (.find "n")
      return .ok ⟨1, .unit⟩
    else do
      let _ ← .ask (.obtain "n" true)
      return .error (.raised "no k")
  early _ := do
    let _ ← .ask (.find "k")
    return ⟨0, .unit⟩
  disposer _ := return .ok ()
  hear _ memory := memory

theorem shown_until_ousted_bustle :
    (∀ d ∈ deeds bustle 8 (building bustle true 0), d.exempts = false) ∧
      (building bustle true 2).registry.launch? (building bustle true 2).deed =
        some (.expose "n" .find, true) ∧
      (∃ i < 2, (building bustle true i).Accepts "n" true) ∧
      (building bustle true 2).AnswersAfter bustle 2 (.object (some ⟨0, .unit⟩)) ∧
      deeds bustle 6 (building bustle true 3) =
        [.asked (.find "k"), .showed "n" .find ⟨0, .unit⟩, .asked (.obtain "k" false),
          .asked (.obtain "n" true), .built "k" false (.error (.raised "no k")),
          .asked (.find "n")] ∧
      (building bustle true 6).AnswersAfter bustle 0 (.made (.ok ⟨0, .unit⟩)) ∧
      (building bustle true 8).AnswersAfter bustle 0 (.object (some ⟨0, .unit⟩)) := by
  have ht : ∀ d ∈ deeds bustle 8 (building bustle true 0), d.exempts = false := by decide
  have ht₆ : ∀ d ∈ deeds bustle 6 (building bustle true 0), d.exempts = false := by decide
  have hl : (building bustle true 2).registry.launch? (building bustle true 2).deed =
      some (.expose "n" .find, true) := rfl
  have ha : (building bustle true 2).AnswersAfter bustle 2 (.object (some ⟨0, .unit⟩)) :=
    ⟨rfl, by decide⟩
  have hquiet : ∀ j, 2 < j → j < 4 → (building bustle true j).deed.offered? "n" = none := by
    intro j h h'
    obtain rfl : j = 3 := by omega
    rfl
  have hkept : ∀ j, 4 < j → j < 8 → (building bustle true j).deed.ousts "n" = false := by
    intro j h h'
    obtain rfl | rfl | rfl : j = 5 ∨ j = 6 ∨ j = 7 := by omega
    all_goals rfl
  obtain ⟨haccepted, hshown⟩ := shown_until_ousted ht
  obtain ⟨-, hshown₆⟩ := shown_until_ousted ht₆
  obtain ⟨i, hi, hi', -⟩ := haccepted 2 "n" .find true hl
  obtain ⟨hfound, -⟩ := hshown 2 2 "n" .find true _ ⟨0, .unit⟩ (by decide) hl ha rfl hquiet hkept
  obtain ⟨-, -, hmade⟩ := hshown₆ 2 2 "n" .find true _ ⟨0, .unit⟩ (by decide) hl ha rfl hquiet
    fun j h h' => hkept j h (Nat.lt_trans h' (by decide))
  exact ⟨ht, hl, ⟨i, hi, hi'⟩, ha, rfl, (hmade true rfl rfl).1, hfound rfl⟩

def parade : Client Unit (Request Unit) Unit where
  factory _ := do
    let _ ← .ask (.defer "n" ())
    let _ ← .ask (.onDestroy "z" ())
    let _ ← .ask .destroyAll
    let _ ← .ask (.find "n")
    return .ok ⟨1, .unit⟩
  early _ := return ⟨0, .unit⟩
  disposer _ := do
    let _ ← .ask (.find "n")
    let _ ← .ask (.find "n")
    return .ok ()
  hear _ memory := memory

/-- The factory of `n` looks for its object twice. The callback that makes the object, if its label
says so, defers another one and looks for that first. -/
def relay : Client Unit (Request Bool) Bool where
  factory _ := do
    let _ ← .ask (.defer "n" true)
    let _ ← .ask (.find "n")
    let _ ← .ask (.find "n")
    return .ok ⟨2, .unit⟩
  early again := do
    if again then
      let _ ← Program.ask (.defer "n" false)
      let _ ← Program.ask (.find "n")
      return ⟨1, .unit⟩
    else return ⟨0, .unit⟩
  disposer _ := return .ok ()
  hear _ memory := memory

/-- An object that was shown is not found any more, though the construction of `n` goes on and
nothing was done to `n` by name: a teardown that was running sweeps it away. In the second run a
callback that was running puts another in its place. -/
theorem shown_then_lost :
    ((∀ d ∈ deeds parade 15 (building parade () 0), d.exempts = false) ∧
      (building parade () 7).registry.launch? (building parade () 7).deed =
        some (.expose "n" .find, ()) ∧
      (building parade () 7).AnswersAfter parade 1 (.object (some ⟨0, .unit⟩)) ∧
      deeds parade 6 (building parade () 9) =
        [.asked (.find "n"),
          .disposed "z" true ⟨[.contained "z", .forget "z", .sweep], ["z"], {}⟩,
          .turned ⟨[.contained "z", .forget "z", .sweep], ["z"], ⟨["z"], []⟩⟩,
          .turned ⟨[.forget "z", .sweep], ["z"], ⟨["z"], []⟩⟩,
          .turned ⟨[.sweep], ["z"], ⟨["z"], []⟩⟩, .turned ⟨[], ["z"], ⟨["z"], []⟩⟩] ∧
      "n" ∈ (building parade () 15).making ∧
      (building parade () 15).deed = .asked (.find "n") ∧
      (building parade () 15).AnswersAfter parade 0 (.object none)) ∧
    ((∀ d ∈ deeds relay 7 (building relay true 0), d.exempts = false) ∧
      (building relay true 4).registry.launch? (building relay true 4).deed =
        some (.expose "n" .find, false) ∧
      (building relay true 4).AnswersAfter relay 1 (.object (some ⟨0, .unit⟩)) ∧
      (building relay true 6).deed = .showed "n" .find ⟨1, .unit⟩ ∧
      "n" ∈ (building relay true 7).making ∧
      (building relay true 7).deed = .asked (.find "n") ∧
      (building relay true 7).AnswersAfter relay 0 (.object (some ⟨1, .unit⟩))) := by
  constructor
  · exact ⟨by decide, rfl, ⟨rfl, by decide⟩, rfl, by decide, rfl, rfl, by decide⟩
  · exact ⟨by decide, rfl, ⟨rfl, by decide⟩, rfl, by decide, rfl, rfl, by decide⟩

end Machine

end ObjectRegistry
