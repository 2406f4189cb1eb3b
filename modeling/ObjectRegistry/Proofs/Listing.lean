import ObjectRegistry.Proofs.EarlyObjects
import ObjectRegistry.Proofs.Erasure

namespace ObjectRegistry

variable {σ ρ κ : Type}

theorem pair_sublist_filter {l : List Name} {p : Name → Bool} {a b : Name} (ha : p a = true)
    (hb : p b = true) : [a, b].Sublist (l.filter p) ↔ [a, b].Sublist l := by
  constructor
  · exact fun h => h.trans List.filter_sublist
  · intro h
    simpa [ha, hb] using h.filter p

namespace Store

variable {s s' : Store κ} {d : Deed κ} {n k a b : Name}

theorem contains_finished : s.finished.contains n = true ↔ s.finished[n]? ≠ none := by
  rw [Std.ExtTreeMap.contains_eq_isSome_getElem?, Option.isSome_iff_ne_none]

theorem mem_drop_iff (hs : s.filed.Nodup) : n ∈ (s.drop k).filed ↔ n ∈ s.filed ∧ n ≠ k := by
  simp only [drop, hs.mem_erase_iff, and_comm]

theorem mem_discard_iff (hs : s.filed.Nodup) :
    n ∈ (s.discard k).filed ↔ n ∈ s.filed ∧ (n = k → s.finished[n]? ≠ none) := by
  simp only [discard]
  split
  · case isTrue hk =>
    refine ⟨fun h => ⟨h, ?_⟩, And.left⟩
    rintro rfl
    exact contains_finished.1 hk
  · case isFalse hk =>
    rw [hs.mem_erase_iff, and_comm]
    refine and_congr_right fun _ => ⟨fun hn he => absurd he hn, fun h he => hk ?_⟩
    subst he
    exact contains_finished.2 (h rfl)

theorem filed_of_listed (hn : n ∈ s.names) : n ∈ s.filed :=
  (List.mem_filter.1 hn).1

theorem pair_sublist_names (ha : s.finished[a]? ≠ none) (hb : s.finished[b]? ≠ none) :
    [a, b].Sublist s.names ↔ [a, b].Sublist s.filed :=
  pair_sublist_filter (contains_finished.2 ha) (contains_finished.2 hb)

structure Listed (s : Store κ) : Prop where
  nodup : s.filed.Nodup
  finished : ∀ {n}, s.finished[n]? ≠ none → n ∈ s.filed

theorem Listed.refiles (h : s.Listed) (hr : Refiles s d s') : s'.Listed := by
  refine ⟨nodup_refiles h.nodup hr, fun {n} hn => ?_⟩
  have finish {k : Name} {object : Handle} (hn : (s.finish k object).finished[n]? ≠ none) :
      n ∈ (s.finish k object).filed := by
    refine mem_file_iff.2 ?_
    change (s.finished.insert k object)[n]? ≠ none at hn
    rw [NameMap.getElem?_insert] at hn
    split at hn
    · case isTrue hk => exact .inr hk.symm
    · exact .inl (h.finished hn)
  cases hr with
  | kept | closed | taken | showed => exact h.finished hn
  | installed | built => exact finish hn
  | deferred => exact mem_file_iff.2 (.inl (h.finished hn))
  | cleared => simp [clear] at hn
  | @dropped d k =>
    rw [mem_drop_iff h.nodup]
    simp only [drop, NameMap.getElem?_erase, ne_eq, ite_eq_left_iff, not_forall] at hn
    obtain ⟨hk, hn⟩ := hn
    exact ⟨h.finished hn, Ne.symm hk⟩
  | discarded =>
    rw [mem_discard_iff h.nodup]
    exact ⟨h.finished hn, fun _ => hn⟩

namespace Listed

variable (h : s.Listed)
include h

theorem nodup_names : s.names.Nodup := h.nodup.filter _

theorem mem_names : n ∈ s.names ↔ s.finished[n]? ≠ none := by
  rw [names, List.mem_filter, contains_finished]
  exact ⟨And.right, fun hn => ⟨h.finished hn, hn⟩⟩

theorem length_names : s.names.length = s.size := by
  have hperm : s.names.Perm s.finished.keys := by
    rw [List.perm_ext_iff_of_nodup h.nodup_names Std.ExtTreeMap.nodup_keys]
    intro n
    rw [h.mem_names, Std.ExtTreeMap.mem_keys, ← contains_finished, Std.ExtTreeMap.contains_iff_mem]
  rw [hperm.length_eq, Std.ExtTreeMap.length_keys, size]

theorem pair_refiles (hr : Refiles s d s') (ha : a ∈ s.filed) (hb : b ∈ s.filed)
    (ha' : a ∈ s'.filed) (hb' : b ∈ s'.filed) :
    [a, b].Sublist s'.filed ↔ [a, b].Sublist s.filed := by
  have erased {k : Name} (ha : a ∈ s.filed.erase k) (hb : b ∈ s.filed.erase k) :
      [a, b].Sublist (s.filed.erase k) ↔ [a, b].Sublist s.filed := by
    rw [h.nodup.mem_erase_iff] at ha hb
    rw [erase_eq_filter_ne h.nodup]
    exact pair_sublist_filter (decide_eq_true ha.1) (decide_eq_true hb.1)
  have filed {t : Store κ} (ht : t.filed = s.filed) (k : Name) :
      [a, b].Sublist (t.file k).filed ↔ [a, b].Sublist s.filed := by
    simp only [file, ht]
    split
    · rfl
    · case isFalse hk =>
      have hak : a ≠ k := fun he => hk (he ▸ ha)
      have hbk : b ≠ k := fun he => hk (he ▸ hb)
      have hkeep : (s.filed ++ [k]).filter (· ≠ k) = s.filed := by
        rw [List.filter_append, List.filter_eq_self.2 fun x hx => ?_]
        · simp
        · exact decide_eq_true fun he => hk (he ▸ hx)
      rw [← pair_sublist_filter (l := s.filed ++ [k]) (p := (· ≠ k)) (decide_eq_true hak)
        (decide_eq_true hbk), hkeep]
  cases hr with
  | kept | closed | taken | showed => rfl
  | installed | built | deferred => exact filed rfl _
  | cleared => cases ha'
  | dropped => exact erased ha' hb'
  | discarded =>
    simp only [discard] at ha' hb' ⊢
    split
    · rfl
    · case isFalse hk =>
      rw [if_neg hk] at ha' hb'
      exact erased ha' hb'

end Listed

theorem filed_anew (hr : Refiles s d s') (hn : n ∉ s.filed) (hn' : n ∈ s'.filed)
    (ha : a ∈ s.filed) : [a, n].Sublist s'.filed := by
  have filed {t : Store κ} (ht : t.filed = s.filed) {k : Name} (hk : n ∈ (t.file k).filed) :
      [a, n].Sublist (t.file k).filed := by
    rw [mem_file_iff, ht] at hk
    obtain rfl := hk.resolve_left hn
    simp only [file, ht, hn, ↓reduceIte]
    exact (List.singleton_sublist.2 ha).append (List.Sublist.refl [n])
  cases hr with
  | kept | closed | taken | showed => exact absurd hn' hn
  | installed | built | deferred => exact filed rfl hn'
  | cleared => cases hn'
  | dropped => exact absurd (List.mem_of_mem_erase hn') hn
  | discarded =>
    simp only [discard] at hn'
    split at hn'
    · exact absurd hn' hn
    · exact absurd (List.mem_of_mem_erase hn') hn

end Store

namespace Deed

/-- Whether a deed ends what the acceptance of a deferred callback of `n` stands for. Then `n` is
taken away, or a construction of it ends. -/
def dismisses (n : Name) : Deed κ → Bool
  | built k _ _ | brokeOff k _ _ => k = n
  | d => d.purges n

theorem purges_of_not_dismisses {n : Name} {d : Deed κ} (h : d.dismisses n = false) :
    d.purges n = false := by
  cases d with
  | built | brokeOff => rfl
  | _ => exact h

theorem ends?_of_not_dismisses {n : Name} {d : Deed κ} (h : d.dismisses n = false)
    (ownsWindow : Bool) : d.ends? ≠ some (.construct n ownsWindow) := by
  intro he
  obtain ⟨outcome, rfl⟩ | ⟨p, rfl⟩ := ends?_construct he <;> simp [dismisses] at h

end Deed

namespace Registry

variable {r : Registry κ} {n : Name} {d : Deed κ}

theorem filed_after (hn : n ∈ r.store.filed) (hd : d.dismisses n = false) :
    n ∈ (r.after d).store.filed := by
  by_cases ho : d.ousts n = true
  · -- Without being dismissed a name is ousted only by what has to do with a new object of it.
    cases d with
    | showed k purpose object => exact hn
    | asked op =>
      cases op with
      | defer k early =>
        rw [after, start]
        obtain ⟨a, ha⟩ | ⟨-, -, ha⟩ := r.defer_inv k early <;> rw [ha]
        · exact hn
        · exact Store.mem_file_iff.2 (.inl hn)
      | store op =>
        cases op with
        | install k object =>
          change n ∈ (Store.Op.update r.store (.install k object)).filed
          obtain h | h := Store.update_install r.store k object <;> rw [h]
          · exact hn
          · exact Store.mem_file_iff.2 (.inl hn)
        | _ => exact absurd (hd.symm.trans ho) Bool.false_ne_true
      | _ => exact absurd (hd.symm.trans ho) Bool.false_ne_true
    | _ => exact absurd (hd.symm.trans ho) Bool.false_ne_true
  · exact (agreesOn_after (Bool.of_not_eq_true ho)).2.2 hn

theorem finished_of_dismissed (hs : r.store.filed.Nodup) (hd : d.dismisses n = true)
    (hn : n ∈ (r.after d).store.filed) : (r.after d).store.finished[n]? ≠ none := by
  have discarded {ownsWindow : Bool} (h : n ∈ (r.abandon n ownsWindow).store.filed) :
      r.store.finished[n]? ≠ none :=
    ((Store.mem_discard_iff hs).1 h).2 rfl
  have dropped (h : n ∈ (r.store.drop n).filed) : False := ((Store.mem_drop_iff hs).1 h).2 rfl
  cases d with
  | idle | withheld | disposed | showed => cases hd
  | built k ownsWindow outcome =>
    obtain rfl := of_decide_eq_true hd
    cases outcome with
    | error fault => exact discarded hn
    | ok object =>
      rw [finished_after]
      simp [Deed.purges, Deed.built?]
  | brokeOff k ownsWindow p =>
    obtain rfl := of_decide_eq_true hd
    exact discarded hn
  | turned walk =>
    obtain ⟨tasks, visited, report⟩ := walk
    cases tasks with
    | nil => cases hd
    | cons task rest =>
      cases task with
      | start k | contained k | forget k | dispose k callback claimed => cases hd
      | sweep => cases hn
      | enter k =>
        obtain ⟨rfl, hk⟩ : k = n ∧ k ∉ visited := of_decide_eq_true hd
        simp only [after, Walk.turn, if_neg hk] at hn
        exact (dropped hn).elim
  | asked op =>
    cases op with
    | store op =>
      cases op with
      | clear => cases hn
      | drop k =>
        obtain rfl := of_decide_eq_true hd
        exact (dropped hn).elim
      | _ => cases hd
    | _ => cases hd

theorem filed_inv (hs : r.store.filed.Nodup) (hn : n ∈ (r.after d).store.filed) :
    (r.after d).store.finished[n]? ≠ none ∨
      (∃ early, d = .asked (.defer n early) ∧ r.reply? d = some (.settled (.ok ()))) ∨
      n ∈ r.store.filed ∧ d.dismisses n = false := by
  by_cases hd : d.dismisses n = true
  · exact .inl (finished_of_dismissed hs hd hn)
  by_cases hf : n ∈ r.store.filed
  · exact .inr (.inr ⟨hf, Bool.of_not_eq_true hd⟩)
  have hr := r.refiles d
  have finish {k : Name} {object : Handle} (h : n ∈ (r.store.finish k object).filed) :
      (r.store.finish k object).finished[n]? ≠ none := by
    obtain rfl := (Store.mem_file_iff.1 h).resolve_left hf
    simp [Store.finish, Store.file]
  generalize hst : (r.after d).store = s at hn hr
  cases hr with
  | kept | closed | taken | showed => exact absurd hn hf
  | installed | built => exact .inl (finish hn)
  | cleared => cases hn
  | dropped => exact absurd ((Store.mem_drop_iff hs).1 hn).1 hf
  | discarded => exact absurd ((Store.mem_discard_iff hs).1 hn).1 hf
  | @deferred k early =>
    obtain rfl := (Store.mem_file_iff.1 hn).resolve_left hf
    rw [after, start] at hst
    obtain ⟨a, ha⟩ | ⟨-, -, ha⟩ := r.defer_inv n early
    · rw [ha] at hst
      exact absurd (hst ▸ hn) hf
    · exact .inr (.inl ⟨early, rfl, by simp only [reply?, start, ha, Outset.reply?]⟩)

theorem deferred_inv {early : κ}
    (h : r.reply? (.asked (.defer n early)) = some (.settled (.ok ()))) :
    r.store.finished[n]? ≠ none ∨
      r.marks.isUnderway n = true ∧
        (r.after (.asked (.defer n early))).store = r.store.defer n early := by
  simp only [reply?, after, start, defer] at h ⊢
  by_cases hname : n = ""
  · rw [if_pos hname] at h
    cases h
  by_cases hf : r.store.holds n = true
  · exact .inl (Store.contains_finished.1 hf)
  by_cases hu : r.marks.isUnderway n = true
  · simp [hname, hf, hu, Outset.registry]
  · simp [hname, hf, hu, Outset.reply?] at h

theorem filed_of_deferred {early : κ} (hs : r.store.Listed)
    (h : r.reply? (.asked (.defer n early)) = some (.settled (.ok ()))) :
    n ∈ (r.after (.asked (.defer n early))).store.filed := by
  obtain hf | ⟨-, hdefer⟩ := deferred_inv h
  · exact filed_after (hs.finished hf) rfl
  · rw [hdefer]
    exact Store.mem_file_iff.2 (.inr rfl)

end Registry

namespace Machine

variable [Language ρ κ] {client : Client σ ρ κ} {m : Machine σ ρ κ} {n a b : Name}

theorem Reachable.listed (h : m.Reachable client) : m.registry.store.Listed := by
  refine h.keeps (P := fun m => m.registry.store.Listed) (fun settings memory main => ?_)
    fun m m' hm hs => ?_
  · exact ⟨List.nodup_nil, fun hn => absurd (NameMap.getElem?_empty _) hn⟩
  · rw [registry_step hs]
    exact hm.refiles (m.registry.refiles m.deed)

theorem listed_upto (hm : m.Reachable client) {k : Nat} (hn : n ∈ m.registry.store.names)
    (hp : ∀ j < k, (run client j m).deed.purges n = false) :
    n ∈ (run client k m).registry.store.names := by
  rw [hm.listed.mem_names] at hn
  rw [(hm.run k).listed.mem_names]
  refine run_keeps (P := fun m => m.registry.store.finished[n]? ≠ none) hn fun j hj m' ho hs => ?_
  obtain ⟨o, ho⟩ := Option.ne_none_iff_exists'.1 ho
  rw [finished_step hs ho (hp j hj)]
  exact Option.some_ne_none _

theorem pair_run (hm : m.Reachable client) {k : Nat}
    (ha : ∀ j ≤ k, a ∈ (run client j m).registry.store.filed)
    (hb : ∀ j ≤ k, b ∈ (run client j m).registry.store.filed) :
    [a, b].Sublist (run client k m).registry.store.filed ↔
      [a, b].Sublist m.registry.store.filed := by
  refine run_keeps
    (P := fun m' => [a, b].Sublist m'.registry.store.filed ↔ [a, b].Sublist m.registry.store.filed)
    Iff.rfl fun j hj m' ih hs => ?_
  have hnext : run client (j + 1) m = m' := by rw [run_succ, hs, Option.getD_some]
  have hr := (run client j m).registry.refiles (run client j m).deed
  rw [← registry_step hs] at hr
  rw [← ih]
  refine (hm.run j).listed.pair_refiles hr (ha j (by omega)) (hb j (by omega)) ?_ ?_ <;>
    rw [← hnext]
  · exact ha (j + 1) hj
  · exact hb (j + 1) hj

theorem pair_listed (hm : m.Reachable client) {k : Nat} (ha : a ∈ m.registry.store.names)
    (hb : b ∈ m.registry.store.names)
    (hp : ∀ j < k,
      (run client j m).deed.purges a = false ∧ (run client j m).deed.purges b = false) :
    a ∈ (run client k m).registry.store.names ∧ b ∈ (run client k m).registry.store.names ∧
      ([a, b].Sublist (run client k m).registry.store.names ↔
        [a, b].Sublist m.registry.store.names) := by
  have ha' (j : Nat) (hj : j ≤ k) : a ∈ (run client j m).registry.store.names :=
    listed_upto hm ha fun i hi => (hp i (by omega)).1
  have hb' (j : Nat) (hj : j ≤ k) : b ∈ (run client j m).registry.store.names :=
    listed_upto hm hb fun i hi => (hp i (by omega)).2
  have hak := ha' k (Nat.le_refl k)
  have hbk := hb' k (Nat.le_refl k)
  refine ⟨hak, hbk, ?_⟩
  rw [Store.pair_sublist_names ((hm.run k).listed.mem_names.1 hak)
      ((hm.run k).listed.mem_names.1 hbk),
    Store.pair_sublist_names (hm.listed.mem_names.1 ha) (hm.listed.mem_names.1 hb)]
  exact pair_run hm (fun j hj => Store.filed_of_listed (ha' j hj))
    fun j hj => Store.filed_of_listed (hb' j hj)

/-- A callback is accepted for `n` in step `q`, and until step `p` neither is `n` taken away nor
does a construction of it end. -/
def Reserves (client : Client σ ρ κ) (n : Name) (m : Machine σ ρ κ) (q p : Nat) : Prop :=
  q < p ∧ (∃ early, (run client q m).Accepts n early) ∧
    ∀ j, q < j → j < p → (run client j m).deed.dismisses n = false

/-- If step `t` makes `n` finished, its place in the listing is that of step `p`. There the first
callback was accepted for it since it was last taken away, in the construction that is in progress
in step `t`. If there is none, `p` is `t`. -/
def Debuts (client : Client σ ρ κ) (n : Name) (m : Machine σ ρ κ) (p t : Nat) : Prop :=
  (p = t ∨ Reserves client n m p t) ∧ ∀ q, ¬Reserves client n m q p

section Reserves

variable {q p t : Nat}

theorem Reserves.trans (h : Reserves client n m q p) (h' : Reserves client n m p t) :
    Reserves client n m q t := by
  obtain ⟨hqp, hq, hbefore⟩ := h
  obtain ⟨hpt, ⟨early, hp⟩, hafter⟩ := h'
  refine ⟨by omega, hq, fun j hj hjt => ?_⟩
  obtain hjp | rfl | hjp := Nat.lt_trichotomy j p
  · exact hbefore j hj hjp
  · rw [hp.1]
    rfl
  · exact hafter j hjp hjt

theorem Reserves.until (h : Reserves client n m q t) (hqp : q < p) (hpt : p ≤ t) :
    Reserves client n m q p :=
  ⟨hqp, h.2.1, fun j hj hjp => h.2.2 j hj (by omega)⟩

theorem Reserves.purges (h : Reserves client n m q p) {j : Nat} (hj : q ≤ j) (hjp : j < p) :
    (run client j m).deed.purges n = false := by
  obtain rfl | hj := Nat.eq_or_lt_of_le hj
  · obtain ⟨early, hd, -⟩ := h.2.1
    rw [hd]
    rfl
  · exact Deed.purges_of_not_dismisses (h.2.2 j hj hjp)

theorem Reserves.making {client : Client σ (Request κ) κ} {settings : Settings} {memory : σ}
    {main : Program σ (Request κ) Unit}
    (ht : ∀ d ∈ deeds client p (.ofMain settings.registry memory main), d.exempts = false)
    (h : Reserves client n (.ofMain settings.registry memory main) q p)
    (hf : (run client q (.ofMain settings.registry memory main)).registry.store.finished[n]? = none)
    {j : Nat} (hj : q ≤ j) (hjp : j ≤ p) :
    n ∈ (run client j (.ofMain settings.registry memory main)).making := by
  obtain ⟨hqp, ⟨early, hd, ha⟩, hkept⟩ := h
  obtain ⟨d, rfl⟩ := Nat.exists_eq_add_of_le hj
  rw [hd] at ha
  obtain hfin | ⟨hu, -⟩ := Registry.deferred_inv ha
  · exact absurd hf hfin
  have hnests := nests_run fun d hd => ht d (mem_deeds_of_le (Nat.le_of_lt hqp) hd)
  rw [run_add]
  refine run_keeps (P := fun m => n ∈ m.making) (hnests.isUnderway.1 hu) fun i hi m' hn hs => ?_
  refine mem_making_step hs hn ?_
  rw [← run_add]
  obtain rfl | hi := Nat.eq_zero_or_pos i
  · rw [Nat.add_zero, hd]
    nofun
  · exact Deed.ends?_of_not_dismisses (hkept _ (by omega) (by omega))

theorem exists_debut (client : Client σ ρ κ) (n : Name) (m : Machine σ ρ κ) (t : Nat) :
    ∃ p ≤ t, Debuts client n m p t := by
  have first (q : Nat) (hq : Reserves client n m q t) : ∃ p ≤ t, Debuts client n m p t := by
    induction q using Nat.strongRecOn with
    | ind q ih =>
      by_cases h : ∃ q', Reserves client n m q' q
      · obtain ⟨q', hq'⟩ := h
        exact ih q' hq'.1 (hq'.trans hq)
      · exact ⟨q, Nat.le_of_lt hq.1, .inr hq, not_exists.1 h⟩
  by_cases h : ∃ q, Reserves client n m q t
  · obtain ⟨q, hq⟩ := h
    exact first q hq
  · exact ⟨t, Nat.le_refl t, .inl rfl, not_exists.1 h⟩

theorem Reserves.filed (hm : m.Reachable client) (h : Reserves client n m q p) :
    n ∈ (run client p m).registry.store.filed := by
  obtain ⟨hqp, ⟨early, hd, ha⟩, hkept⟩ := h
  obtain ⟨d, rfl⟩ := Nat.exists_eq_add_of_lt hqp
  obtain ⟨m', hs⟩ := step_of_asked client hd
  have hnext : run client (q + 1) m = m' := by rw [run_succ, hs, Option.getD_some]
  rw [Nat.add_right_comm, run_add, hnext]
  refine run_keeps (P := fun m => n ∈ m.registry.store.filed) ?_ fun j hj m'' ih hs' => ?_
  · rw [registry_step hs, hd]
    rw [hd] at ha
    exact Registry.filed_of_deferred (hm.run q).listed ha
  · rw [registry_step hs']
    refine Registry.filed_after ih ?_
    rw [← hnext, ← run_add]
    exact hkept _ (by omega) (by omega)

theorem reserved_of_filed (hm : m.Reachable client) (h₀ : m.registry.store.filed = []) {k : Nat}
    (hk : ∀ j < k, ∃ m', (run client j m).step client = some m')
    (hn : n ∈ (run client k m).registry.store.filed) :
    (run client k m).registry.store.finished[n]? ≠ none ∨ ∃ q, Reserves client n m q k := by
  induction k with
  | zero =>
    rw [run_zero, h₀] at hn
    cases hn
  | succ k ih =>
    obtain ⟨m', hs⟩ := hk k (Nat.lt_succ_self k)
    rw [run_succ, hs, Option.getD_some] at hn ⊢
    rw [registry_step hs] at hn
    obtain hf | ⟨early, hd, ha⟩ | ⟨hn, hd⟩ := Registry.filed_inv (hm.run k).listed.nodup hn
    · rw [registry_step hs]
      exact .inl hf
    · refine .inr ⟨k, by omega, ⟨early, hd, ha⟩, fun j hj hjk => by omega⟩
    · obtain hf | ⟨q, hq⟩ := ih (fun j hj => hk j (by omega)) hn
      · obtain ⟨o, ho⟩ := Option.ne_none_iff_exists'.1 hf
        rw [finished_step hs ho (Deed.purges_of_not_dismisses hd)]
        exact .inl (Option.some_ne_none _)
      · refine .inr ⟨q, by have := hq.1; omega, hq.2.1, fun j hj hjk => ?_⟩
        obtain hjk | rfl := Nat.lt_succ_iff_lt_or_eq.1 hjk
        · exact hq.2.2 j hj hjk
        · exact hd

theorem Debuts.not_filed (hm : m.Reachable client) (h₀ : m.registry.store.filed = [])
    (h : Debuts client n m p t) (hpt : p ≤ t)
    (ht : ∀ j < p, ∃ m', (run client j m).step client = some m')
    (hn : n ∉ (run client t m).registry.store.names) :
    n ∉ (run client p m).registry.store.filed := by
  obtain ⟨hplace, hfirst⟩ := h
  intro hf
  obtain hf | ⟨q, hq⟩ := reserved_of_filed hm h₀ ht hf
  · apply hn
    obtain rfl | hplace := hplace
    · exact (hm.run p).listed.mem_names.2 hf
    · obtain ⟨d, rfl⟩ := Nat.exists_eq_add_of_le hpt
      rw [run_add]
      refine listed_upto (hm.run p) ((hm.run p).listed.mem_names.2 hf) fun j hj => ?_
      rw [← run_add]
      exact hplace.purges (by omega) (by omega)
  · exact hfirst q hq

theorem Debuts.filed (hm : m.Reachable client) (h : Debuts client n m p t)
    (hn : n ∈ (run client (t + 1) m).registry.store.names) {j : Nat} (hp : p < j) (ht : j ≤ t + 1) :
    n ∈ (run client j m).registry.store.filed := by
  obtain ht | rfl := Nat.le_succ_iff.1 ht
  · obtain rfl | hplace := h.1
    · omega
    · exact (hplace.until hp ht).filed hm
  · exact Store.filed_of_listed hn

theorem Debuts.behind (hm : m.Reachable client) (h₀ : m.registry.store.filed = [])
    (h : Debuts client n m p t) (hpt : p ≤ t)
    (hn : n ∉ (run client t m).registry.store.names)
    (hn' : n ∈ (run client (t + 1) m).registry.store.names)
    (ha : ∀ j, p ≤ j → j ≤ t + 1 → a ∈ (run client j m).registry.store.names) :
    [a, n].Sublist (run client (t + 1) m).registry.store.names := by
  have hstep : ∃ m', (run client t m).step client = some m' := by
    cases hs : (run client t m).step client with
    | some m' => exact ⟨m', rfl⟩
    | none =>
      rw [run_succ, hs, Option.getD_none] at hn'
      exact absurd hn' hn
  obtain ⟨m', hs⟩ := hstep
  obtain ⟨m₁, hs₁⟩ := step_of_le hpt hs
  have hnone := h.not_filed hm h₀ hpt (fun j hj => step_of_le (by omega) hs) hn
  have hfiled {j : Nat} (hp : p < j) (ht : j ≤ t + 1) := h.filed hm hn' hp ht
  have hstart : [a, n].Sublist (run client (p + 1) m).registry.store.filed := by
    have hnew := hfiled (Nat.lt_succ_self p) (by omega)
    rw [run_succ, hs₁, Option.getD_some, registry_step hs₁] at hnew ⊢
    exact Store.filed_anew ((run client p m).registry.refiles _) hnone hnew
      (Store.filed_of_listed (ha p (Nat.le_refl p) (by omega)))
  obtain ⟨d, rfl⟩ := Nat.exists_eq_add_of_le hpt
  have hlast : p + d + 1 = p + 1 + d := Nat.add_right_comm p d 1
  have ha' := ha (p + d + 1) (by omega) (Nat.le_refl _)
  rw [Store.pair_sublist_names ((hm.run _).listed.mem_names.1 ha')
    ((hm.run _).listed.mem_names.1 hn'), hlast, run_add]
  refine (pair_run (hm.run (p + 1)) (fun j hj => ?_) fun j hj => ?_).2 hstart <;> rw [← run_add]
  · exact Store.filed_of_listed (ha _ (by omega) (by omega))
  · exact hfiled (by omega) (by omega)

end Reserves

/-- The listing holds each finished name once and nothing else. Names that nobody takes away stay in
it, in the order in which they are. A name that is new in it stands behind all those that were
listed in the step from which it has its place and have stayed since. -/
theorem listing_exact_and_stable (settings : Settings) (memory : σ) (main : Program σ ρ Unit) :
    let m := fun k => run client k (.ofMain settings.registry memory main)
    let listed := fun k => (m k).registry.store.names
    (∀ k,
      (listed k).Nodup ∧
      (∀ n, n ∈ listed k ↔ (m k).registry.store.finished[n]? ≠ none) ∧
      ((m k).deed = .asked (.store .names) → (m k).AnswersAfter client 0 (.names (listed k))) ∧
      ((m k).deed = .asked (.store .size) →
        (m k).AnswersAfter client 0 (.count (listed k).length))) ∧
    (∀ i k a b, a ∈ listed i → b ∈ listed i →
      (∀ j < k, (m (i + j)).deed.purges a = false ∧ (m (i + j)).deed.purges b = false) →
      a ∈ listed (i + k) ∧ b ∈ listed (i + k) ∧
        ([a, b].Sublist (listed (i + k)) ↔ [a, b].Sublist (listed i))) ∧
    ∀ t n, n ∉ listed t → n ∈ listed (t + 1) →
      (∃ p ≤ t, Debuts client n (m 0) p t) ∧
      ∀ p ≤ t, Debuts client n (m 0) p t → ∀ a ∈ listed p,
        (∀ j, p ≤ j → j ≤ t → (m j).deed.purges a = false) → [a, n].Sublist (listed (t + 1)) := by
  intro m listed
  have hr (j : Nat) : (m j).Reachable client := ⟨settings, memory, main, j, rfl⟩
  have hrun (i j : Nat) : m (i + j) = run client j (m i) := run_add i j _
  refine ⟨fun k => ⟨(hr k).listed.nodup_names, fun n => (hr k).listed.mem_names,
    fun hd => answersAfter_of_start hd rfl, fun hd => ?_⟩, fun i k a b ha hb hp => ?_,
    fun t n hn hn' => ⟨exists_debut client n (m 0) t, fun p hpt hdebut a ha hp => ?_⟩⟩
  · rw [(hr k).listed.length_names]
    exact answersAfter_of_start hd rfl
  · simp only [hrun] at hp
    simp only [listed, hrun]
    exact pair_listed (hr i) ha hb hp
  · refine hdebut.behind (hr 0) rfl hpt hn hn' fun j hj hjt => ?_
    obtain ⟨d, rfl⟩ := Nat.exists_eq_add_of_le hj
    change a ∈ (m (p + d)).registry.store.names
    rw [hrun]
    refine listed_upto (hr p) ha fun i hi => ?_
    rw [← hrun]
    exact hp _ (by omega) (by omega)

def overtaken : Client Unit (Request Unit) Unit where
  factory _ := do
    let _ ← .ask (.defer "n" ())
    let _ ← .ask (.install "b" ⟨1, .unit⟩)
    return .ok ⟨2, .unit⟩
  early _ := return ⟨3, .unit⟩
  disposer _ := return .ok ()
  hear _ memory := memory

def enlist : Program Unit (Request Unit) Unit := do
  let _ ← .ask (.install "a" ⟨0, .unit⟩)
  let _ ← .ask (.obtain "n" ())
  let _ ← .ask .names

def enlisting (k : Nat) : Machine Unit (Request Unit) Unit :=
  run overtaken k (.ofMain ({} : Settings).registry () enlist)

theorem listing_exact_and_stable_overtaken :
    (enlisting 4).registry.store.names = ["a", "b"] ∧
      Debuts overtaken "n" (enlisting 0) 2 4 ∧
      ["a", "n"].Sublist (enlisting 5).registry.store.names ∧
      (enlisting 5).AnswersAfter overtaken 0 (.names ["a", "n", "b"]) := by
  have hdebut : Debuts overtaken "n" (enlisting 0) 2 4 := by
    refine ⟨.inr ⟨by decide, ⟨(), rfl, rfl⟩, fun j hj hj' => ?_⟩, ?_⟩
    · obtain rfl : j = 3 := by omega
      rfl
    · rintro q ⟨hq, ⟨early, hd, -⟩, -⟩
      obtain rfl | rfl : q = 0 ∨ q = 1 := by omega
      · cases hd
      · cases hd
  obtain ⟨hexact, -, hnew⟩ := @listing_exact_and_stable _ _ _ _ overtaken {} () enlist
  have hbehind := (hnew 4 "n" (by decide) (by decide)).2 2 (by decide) hdebut "a" (by decide)
  refine ⟨by decide, hdebut, hbehind fun j hj hj' => ?_, (hexact 5).2.2.1 rfl⟩
  have hcases : j = 2 ∨ j = 3 ∨ j = 4 := by omega
  obtain rfl | rfl | rfl := hcases <;> rfl

end Machine

end ObjectRegistry
