import ObjectRegistry.Proofs.BothEnds
import ObjectRegistry.Proofs.Disposal
import ObjectRegistry.Proofs.Erasure
import ObjectRegistry.Proofs.TransitiveDependents

namespace ObjectRegistry

variable {σ ρ κ : Type}

theorem NameMap.mem_insert {α : Type} {t : NameMap α} {n k : Name} {v : α} :
    n ∈ t.insert k v ↔ n = k ∨ n ∈ t := by
  rw [Std.ExtTreeMap.mem_insert, Std.compare_eq_iff_eq, eq_comm]

namespace Adjacency

variable {a : Adjacency} {n k m : Name}

theorem Mentions.of_erase (h : Mentions (a.erase k) n) : a.Mentions n := by
  obtain h | ⟨j, h⟩ := h
  · exact .inl (Std.ExtTreeMap.mem_of_mem_erase h)
  · exact .inr ⟨j, (Edges.members_erase_sublist k j a).subset h⟩

theorem Mentions.of_removeMember (h : (removeMember a k m).Mentions n) : a.Mentions n := by
  obtain h | ⟨j, h⟩ := h
  · left
    rw [removeMember] at h
    split at h
    · exact Std.ExtTreeMap.mem_of_mem_erase h
    · case h_2 hne =>
      obtain rfl | h := NameMap.mem_insert.1 h
      · have hset : members a n ≠ [] := by
          intro he
          rw [he, List.erase_nil] at hne
          exact hne rfl
        exact Std.ExtTreeMap.mem_keys.1 (mem_keys_of_members a n hset)
      · exact h
  · exact .inr ⟨j, (members_removeMember_sublist a k j m).subset h⟩

theorem Mentions.of_removeFrom {keys : List Name} (h : (removeFrom a keys m).Mentions n) :
    a.Mentions n := by
  induction keys generalizing a with
  | nil => exact h
  | cons k keys ih => exact (ih h).of_removeMember

theorem Mentions.of_add (h : (add a k m).Mentions n) : a.Mentions n ∨ n ∈ [k, m] := by
  rw [List.mem_pair]
  obtain h | ⟨j, h⟩ := h
  · rw [add] at h
    split at h
    · exact .inl (.inl h)
    · obtain hk | h := NameMap.mem_insert.1 h
      · exact .inr (.inl hk)
      · exact .inl (.inl h)
  · obtain h | ⟨-, hm⟩ := mem_add.1 h
    · exact .inl (.inr ⟨j, h⟩)
    · exact .inr (.inr hm)

end Adjacency

namespace Edges

open Adjacency

variable {e : Edges} {n k d : Name}

def Op.enters (links : Links) : Op → List Name
  | .addDependency n dependent => [links.canonical n, dependent]
  | .addContainment owner part => [owner, part, links.canonical part]
  | _ => []

theorem not_mentions_empty : ¬({} : Edges).Mentions n := by
  have hnone : ¬Adjacency.Mentions ∅ n := by
    rintro (h | ⟨k, h⟩)
    · exact Std.ExtTreeMap.not_mem_empty h
    · rw [members_empty] at h
      cases h
  rintro (h | h | h) <;> exact hnone h

theorem Mentions.of_depend (h : (e.depend k d).Mentions n) : e.Mentions n ∨ n ∈ [k, d] := by
  rw [depend] at h
  split at h
  · exact .inl h
  · obtain h | h | h := h
    · exact .inl (.inl h)
    · exact h.of_add.imp_left fun h => .inr (.inl h)
    · refine h.of_add.imp (fun h => .inr (.inr h)) fun hn => ?_
      rw [List.mem_pair] at hn ⊢
      exact hn.symm

theorem Mentions.of_forget (h : (e.forget k).Mentions n) : e.Mentions n := by
  obtain h | h | h := h
  · exact .inl h.of_removeFrom.of_erase
  · exact .inr (.inl h.of_removeFrom.of_erase)
  · exact .inr (.inr h.of_removeFrom.of_erase)

theorem Mentions.of_takeDependents (h : (e.takeDependents k).Mentions n) : e.Mentions n :=
  h.imp_right (.imp_left Adjacency.Mentions.of_erase)

theorem Mentions.of_takeContained (h : (e.takeContained k).Mentions n) : e.Mentions n :=
  h.imp_left Adjacency.Mentions.of_erase

theorem Mentions.of_addContainment {links : Links} {owner part : Name}
    (h : (e.addContainment links owner part).Mentions n) :
    e.Mentions n ∨ n ∈ [owner, part, links.canonical part] := by
  simp only [List.mem_cons, List.not_mem_nil, or_false]
  rw [addContainment] at h
  split at h
  · exact .inl h
  obtain h | hn := Mentions.of_depend h
  · obtain h | h := h
    · obtain h | hn := h.of_add
      · exact .inl (.inl h)
      · exact .inr ((List.mem_pair.1 hn).imp_right .inl)
    · exact .inl (.inr h)
  · exact .inr ((List.mem_pair.1 hn).elim (fun hn => .inr (.inr hn)) .inl)

theorem Mentions.of_update {links : Links} {op : Op} (h : (op.update links e).Mentions n) :
    e.Mentions n ∨ n ∈ op.enters links := by
  cases op with
  | addDependency k d => exact Mentions.of_depend h
  | addContainment owner part => exact Mentions.of_addContainment h
  | forget k => exact .inl (Mentions.of_forget h)
  | clear => exact absurd h not_mentions_empty
  | _ => exact .inl h

end Edges

/-- The name under which a deed puts something in the store. -/
def Deed.shelves? : Deed κ → Option Name
  | .asked (.store (.install n _)) | .asked (.defer n _) | .built n _ _ | .showed n _ _ => some n
  | _ => none

namespace Store

variable {s s' : Store κ} {n k : Name}

theorem mem_file (h : n ∈ (s.file k).filed) : n ∈ s.filed ∨ n = k := by
  simp only [file] at h
  split at h
  · exact .inl h
  · exact (List.mem_append.1 h).imp_right List.eq_of_mem_singleton

theorem Mentions.of_finish {o : Handle} (h : (s.finish k o).Mentions n) :
    s.Mentions n ∨ n = k := by
  obtain h | h | h | h := h
  · exact (NameMap.mem_insert.1 h).symm.imp_left .inl
  · exact .inl (.inr (.inl (Std.ExtTreeMap.mem_of_mem_erase h)))
  · exact .inl (.inr (.inr (.inl (Std.ExtTreeMap.mem_of_mem_erase h))))
  · exact (mem_file h).imp_left fun h => .inr (.inr (.inr h))

theorem Mentions.of_defer {early : κ} (h : (s.defer k early).Mentions n) :
    s.Mentions n ∨ n = k := by
  obtain h | h | h | h := h
  · exact .inl (.inl h)
  · exact .inl (.inr (.inl (Std.ExtTreeMap.mem_of_mem_erase h)))
  · exact (NameMap.mem_insert.1 h).symm.imp_left fun h => .inr (.inr (.inl h))
  · exact (mem_file h).imp_left fun h => .inr (.inr (.inr h))

theorem Mentions.of_drop (h : (s.drop k).Mentions n) : s.Mentions n := by
  obtain h | h | h | h := h
  · exact .inl (Std.ExtTreeMap.mem_of_mem_erase h)
  · exact .inr (.inl (Std.ExtTreeMap.mem_of_mem_erase h))
  · exact .inr (.inr (.inl (Std.ExtTreeMap.mem_of_mem_erase h)))
  · exact .inr (.inr (.inr (List.mem_of_mem_erase h)))

theorem Mentions.of_discard (h : (s.discard k).Mentions n) : s.Mentions n := by
  obtain h | h | h | h := h
  · exact .inl h
  · exact .inr (.inl (Std.ExtTreeMap.mem_of_mem_erase h))
  · exact .inr (.inr (.inl (Std.ExtTreeMap.mem_of_mem_erase h)))
  · refine .inr (.inr (.inr ?_))
    simp only [discard] at h
    split at h
    · exact h
    · exact List.mem_of_mem_erase h

theorem not_mentions_clear : ¬s.clear.Mentions n := by
  rintro (h | h | h | h)
  · exact Std.ExtTreeMap.not_mem_empty h
  · exact Std.ExtTreeMap.not_mem_empty h
  · exact Std.ExtTreeMap.not_mem_empty h
  · cases h

theorem Mentions.of_refiles {d : Deed κ} (h : Refiles s d s') (hn : s'.Mentions n) :
    s.Mentions n ∨ d.shelves? = some n := by
  cases h with
  | kept | closed => exact .inl hn
  | installed hf => exact hn.of_finish.imp_right fun h => congrArg some h.symm
  | built => exact hn.of_finish.imp_right fun h => congrArg some h.symm
  | deferred hf => exact hn.of_defer.imp_right fun h => congrArg some h.symm
  | taken =>
    exact .inl (hn.imp_right (.imp_right (.imp_left Std.ExtTreeMap.mem_of_mem_erase)))
  | showed =>
    obtain h | h | h := hn
    · exact .inl (.inl h)
    · obtain hk | h := NameMap.mem_insert.1 h
      · exact .inr (congrArg some hk.symm)
      · exact .inl (.inr (.inl h))
    · exact .inl (.inr (.inr h))
  | dropped => exact .inl hn.of_drop
  | discarded => exact .inl hn.of_discard
  | cleared => exact absurd hn not_mentions_clear

end Store

/-- The names that an operation enters in the records, or that the callback it starts is to. -/
def Op.enters (links : Links) : Op κ → List Name
  | .find n | .findAs _ n _ | .obtain n _ | .defer n _ | .onDestroy n _
  | .store (.install n _) => [n]
  | .edges op => op.enters links
  | _ => []

def Duty.makesFor? : Duty κ → Option Name
  | .construct n _ | .expose n _ => some n
  | _ => none

namespace Registry

variable {r : Registry κ} {d : Deed κ} {n : Name}

theorem mentions_turned {walk : Walk κ} (h : (r.after (.turned walk)).Mentions n) :
    r.Mentions n := by
  obtain h | h | h := h
  · exact .inl ((h.of_refiles (r.refiles _)).resolve_right fun hn => by cases hn)
  · refine .inr (.inl ?_)
    obtain ⟨tasks, visited, report⟩ := walk
    cases tasks with
    | nil => exact h
    | cons task rest =>
      cases task with
      | start k => exact h
      | contained k => exact Edges.Mentions.of_takeContained h
      | forget k => exact Edges.Mentions.of_forget h
      | dispose k callback claimed => cases callback <;> exact h
      | sweep => exact absurd h Edges.not_mentions_empty
      | enter k =>
        simp only [after, Walk.turn] at h
        split at h
        · exact h
        · exact Edges.Mentions.of_takeDependents h
  · exact .inr (.inr (((r.entries_turned walk).map _).subset h))

theorem asked_of_accepted {entry : Name × κ} (h : r.accepted? d = some entry) :
    d = .asked (.onDestroy entry.1 entry.2) := by
  cases d with
  | asked op =>
    cases op with
    | onDestroy k callback =>
      simp only [accepted?] at h
      split at h
      · cases h
        rfl
      · cases h
    | _ => cases h
  | _ => cases h

theorem mentions_after (h : (r.after d).Mentions n) :
    r.Mentions n ∨ (∃ op, d = .asked op ∧ n ∈ op.enters r.links) ∨
      ∃ duty, d.ends? = some duty ∧ duty.makesFor? = some n := by
  by_cases hd : ∀ walk, d ≠ .turned walk
  · obtain h | h | h := h
    · obtain h | hn := h.of_refiles (r.refiles d)
      · exact .inl (.inl h)
      · right
        unfold Deed.shelves? at hn
        split at hn
        · exact .inl ⟨_, rfl, List.mem_singleton.2 (Option.some.inj hn).symm⟩
        · exact .inl ⟨_, rfl, List.mem_singleton.2 (Option.some.inj hn).symm⟩
        · exact .inr ⟨_, rfl, hn⟩
        · exact .inr ⟨_, rfl, hn⟩
        · cases hn
    · obtain he | ⟨op, rfl, he⟩ := r.edges_after hd
      · exact .inl (.inr (.inl (he ▸ h)))
      · rw [he] at h
        exact h.of_update.imp (fun h => .inr (.inl h)) fun hn => .inl ⟨_, rfl, hn⟩
    · obtain ⟨he, -⟩ | ⟨k, callback, hadd, ha⟩ := r.disposers_after hd
      · exact .inl (.inr (.inr (he ▸ h)))
      · rw [Disposers.names, (Disposers.add_inv hadd).2, List.map_append, List.mem_append] at h
        refine h.imp (fun h => .inr (.inr h)) fun hk => .inl ⟨_, asked_of_accepted ha, hk⟩
  · obtain ⟨walk, rfl⟩ : ∃ walk, d = .turned walk := by
      simpa only [ne_eq, not_forall, not_not] using hd
    exact .inl (mentions_turned h)

theorem makesFor_of_begin {op : Op κ} {duty : Duty κ} {callback : κ}
    (h : (r.start op).launch? = some (duty, callback)) (hn : duty.makesFor? = some n) :
    n ∈ op.enters r.links := by
  have found {k : Name} {purpose : Purpose} {o : Outset κ} (ho : Finds r k purpose o)
      (h : o.launch? = some (duty, callback)) : n ∈ [k] := by
    cases ho with
    | pending =>
      cases h
      cases hn
      exact List.mem_singleton_self n
    | _ => cases h
  cases op with
  | find k => exact found (r.finds k .find) h
  | findAs given k kind => exact found (r.finds k (.findAs given kind)) h
  | obtain k factory =>
    rw [start] at h
    have ho := r.obtains k factory
    generalize r.obtain k factory = o at ho h
    cases ho with
    | pending | fresh =>
      cases h
      cases hn
      exact List.mem_singleton_self n
    | _ => cases h
  | defer k early =>
    obtain ⟨a, ha⟩ | ⟨-, -, ha⟩ := r.defer_inv k early <;> rw [start, ha] at h <;> cases h
  | onDestroy k callback =>
    obtain ⟨a, disposers, ha⟩ := r.onDestroy_inv k callback
    rw [start, ha] at h
    cases h
  | _ => cases h

theorem makesFor_of_launch {duty : Duty κ} {callback : κ}
    (h : r.launch? d = some (duty, callback)) (hn : duty.makesFor? = some n) :
    ∃ op, d = .asked op ∧ n ∈ op.enters r.links := by
  cases d with
  | asked op => exact ⟨op, rfl, makesFor_of_begin h hn⟩
  | turned walk =>
    simp only [launch?] at h
    split at h
    · cases h
      cases hn
    · cases h
  | _ => cases h

theorem find_of_names (r : Registry κ) (hn : n ∈ r.store.names) :
    ∃ o, r.store.finished[n]? = some o ∧ (r.start (.store (.holds n))).reply? = some (.flag true) ∧
      (r.start (.find n)).reply? = some (.object (some o)) := by
  have hholds : r.store.finished.contains n = true := (List.mem_filter.1 hn).2
  rw [Std.ExtTreeMap.contains_eq_isSome_getElem?] at hholds
  obtain ⟨o, ho⟩ := Option.isSome_iff_exists.1 hholds
  refine ⟨o, ho, ?_, ?_⟩
  · have hflag : r.store.holds n = true := (List.mem_filter.1 hn).2
    exact congrArg (fun b => some (Answer.flag b)) hflag
  · rw [start, find_finished ho]
    rfl

theorem isTransitivelyDependent_of_dependent {e : Edges} {links : Links} {x y : Name}
    (h : y ∈ e.dependentsOf (links.canonical x)) : e.isTransitivelyDependent links x y = true :=
  Edges.isTransitivelyDependent_iff.2 ⟨links.canonical x, .refl, h⟩

end Registry

namespace Machine

/-- Something is recorded of the name, or a callback in progress makes an object for it. -/
def Records (m : Machine σ ρ κ) (n : Name) : Prop :=
  m.registry.Mentions n ∨ ∃ duty ∈ m.duties, duty.makesFor? = some n

variable [Language ρ κ] {client : Client σ ρ κ} {m m' : Machine σ ρ κ} {n : Name}

/-- The next step makes `n` an alias although it is recorded. -/
def Shadows (n : Name) (m : Machine σ ρ κ) : Prop :=
  m.Records n ∧ m.registry.links.isAlias n = false ∧
    ∃ name, m.deed = .asked (.links (.link name n)) ∧
      (m.registry.after m.deed).links.isAlias n = true

theorem records_step (h : m.step client = some m') (hn : m'.Records n) :
    m.Records n ∨ ∃ op, m.deed = .asked op ∧ n ∈ op.enters m.registry.links := by
  obtain hn | ⟨duty, hmem, hn⟩ := hn
  · rw [registry_step h] at hn
    obtain hn | hop | ⟨duty, he, hn⟩ := Registry.mentions_after hn
    · exact .inl (.inl hn)
    · exact .inr hop
    · exact .inl (.inr ⟨duty, duties_of_ends h he ▸ List.mem_cons_self, hn⟩)
  · obtain hmem | ⟨callback, hl⟩ := duties_inv h hmem
    · exact .inl (.inr ⟨duty, hmem, hn⟩)
    · exact .inr (Registry.makesFor_of_launch hl hn)

end Machine

theorem Request.not_alias_of_enters {l : Links} (hl : l.Acyclic) (request : Request κ) {n : Name}
    (hn : n ∈ (request.resolve l).enters l) : l.isAlias n = false := by
  have hcanonical (k : Name) : l.isAlias (l.canonical k) = false :=
    Links.isAlias_eq_false_iff.2 (hl.not_alias_canonical k)
  cases request with
  | find k | findAs k | obtain k | install k | defer k | onDestroy k =>
    rw [List.mem_singleton.1 hn]
    exact hcanonical k
  | addDependency k d =>
    obtain rfl | rfl := List.mem_pair.1 hn
    · exact hcanonical k
    · exact hcanonical d
  | addContainment owner part =>
    simp only [resolve, Op.enters, Edges.Op.enters, List.mem_cons, List.not_mem_nil, or_false] at hn
    obtain rfl | rfl | rfl := hn <;> exact hcanonical _
  | _ => cases hn

namespace Links

variable {l : Links} {n name aka : Name}

theorem not_alias_erase (h : l.isAlias n = false) : (l.erase aka).isAlias n = false := by
  rw [isAlias_eq_false_iff] at h ⊢
  rw [erase, NameMap.getElem?_erase, h, ite_self]

theorem not_alias_update_link (h : l.isAlias n = false) (hn : n ≠ aka) :
    ((Op.link name aka).update l).isAlias n = false := by
  have hl := l.linking name aka
  rw [Op.update]
  generalize l.link name aka = outcome at hl
  cases hl with
  | nameless | kept | taken | circular => exact h
  | self => exact not_alias_erase h
  | added =>
    rw [isAlias_eq_false_iff] at h ⊢
    rw [Except.toOption, Option.getD_some, insert, NameMap.getElem?_insert, if_neg hn.symm, h]

theorem not_alias_update_unlink (h : l.isAlias n = false) :
    ((Op.unlink aka).update l).isAlias n = false := by
  rw [Op.update, unlink]
  split
  · exact not_alias_erase h
  · exact h

end Links

namespace Machine

variable {client : Client σ (Request κ) κ} {m m' : Machine σ (Request κ) κ} {n : Name}

/-- A name becomes an alias by a request that says so, and by no other deed. -/
theorem linked_of_alias (hn : m.registry.links.isAlias n = false)
    (hn' : (m.registry.after m.deed).links.isAlias n = true) :
    ∃ name, m.deed = .asked (.links (.link name n)) := by
  cases hd : m.deed with
  | asked op =>
    obtain ⟨duty, request, next, -, rfl⟩ := call_of_asked hd
    rw [hd, Registry.links_after] at hn'
    cases request with
    | link name aka =>
      by_cases hne : n = aka
      · exact ⟨name, by rw [hne]; rfl⟩
      · cases (Links.not_alias_update_link hn hne).symm.trans hn'
    | unlink aka => cases (Links.not_alias_update_unlink hn).symm.trans hn'
    | _ => cases hn.symm.trans hn'
  | _ =>
    rw [hd, Registry.links_after] at hn'
    cases hn.symm.trans hn'

theorem shadowed_or_alias (hl : m.registry.links.Built) (h : m.step client = some m')
    (hn : m'.Records n) (ha : m'.registry.links.isAlias n = true) :
    m.Shadows n ∨ m.Records n ∧ m.registry.links.isAlias n = true := by
  have hafter := ha
  rw [registry_step h] at hafter
  obtain hm | ⟨op, hd, hop⟩ := records_step h hn
  · cases hb : m.registry.links.isAlias n with
    | true => exact .inr ⟨hm, rfl⟩
    | false =>
      obtain ⟨name, hd⟩ := linked_of_alias hb hafter
      exact .inl ⟨hm, hb, name, hd, hafter⟩
  · -- What is recorded only now was resolved, and is no alias before or after.
    obtain ⟨duty, request, next, -, rfl⟩ := call_of_asked hd
    have hb := request.not_alias_of_enters hl.acyclic hop
    obtain ⟨name, hlink⟩ := linked_of_alias hb hafter
    rw [hlink] at hd
    rw [← Deed.asked.inj hd] at hop
    cases hop

theorem shadowed_of_alias (hm : m.Reachable client) (h₀ : m.registry.links.isAlias n = false)
    {k : Nat} (hn : (run client k m).Records n)
    (ha : (run client k m).registry.links.isAlias n = true) :
    ∃ j < k, (run client j m).Shadows n ∧ ∀ i, j < i → i ≤ k →
      (run client i m).Records n ∧ (run client i m).registry.links.isAlias n = true := by
  induction k with
  | zero => cases h₀.symm.trans ha
  | succ k ih =>
    have hend (i : Nat) (hi : k < i) (hik : i ≤ k + 1) :
        (run client i m).Records n ∧ (run client i m).registry.links.isAlias n = true := by
      obtain rfl := Nat.le_antisymm hik hi
      exact ⟨hn, ha⟩
    have hbefore : (run client k m).Shadows n ∨
        (run client k m).Records n ∧ (run client k m).registry.links.isAlias n = true := by
      rw [run_succ] at hn ha
      cases h : (run client k m).step client with
      | none =>
        rw [h] at hn ha
        exact .inr ⟨hn, ha⟩
      | some m' =>
        rw [h] at hn ha
        exact shadowed_or_alias (hm.run k).built h hn ha
    obtain hs | ⟨hnk, hak⟩ := hbefore
    · exact ⟨k, Nat.lt_succ_self k, hs, hend⟩
    · obtain ⟨j, hj, hs, hsince⟩ := ih hnk hak
      refine ⟨j, Nat.lt_succ_of_lt hj, hs, fun i hi hle => ?_⟩
      obtain hik | hik := Nat.lt_or_ge k i
      · exact hend i hik hle
      · exact hsince i hi hik

/-- A recorded name stands for itself, and can be found under itself, unless it is an alias. It is
one only if it was made one while it was recorded, and then it has been both ever since. -/
theorem recorded_names_addressable (client : Client σ (Request κ) κ) (settings : Settings)
    (memory : σ) (main : Program σ (Request κ) Unit) (k : Nat) :
    let m := fun k => run client k (.ofMain settings.registry memory main)
    let r := (m k).registry
    (∀ n, (m k).Records n → (r.links.canonical n = n ↔ r.links.isAlias n = false) ∧
        (r.links.isAlias n = true → ∃ j < k, (m j).Shadows n ∧
          ∀ i, j < i → i ≤ k → (m i).Records n ∧ (m i).registry.links.isAlias n = true)) ∧
      (∀ n ∈ r.store.names, r.links.isAlias n = false →
        ∃ o, r.store.finished[n]? = some o ∧
          (r.start ((Request.holds n).resolve r.links)).reply? = some (.flag true) ∧
          (r.start ((Request.find n).resolve r.links)).reply? = some (.object (some o))) ∧
      ∀ x, ∀ y ∈ r.edges.dependentsOf (r.links.canonical x), r.links.isAlias y = false →
        (r.start ((Request.isTransitivelyDependent x y).resolve r.links)).reply? =
          some (.flag true) := by
  intro m r
  have hstart : (ofMain settings.registry memory main).Reachable client :=
    ⟨settings, memory, main, 0, rfl⟩
  have hbuilt : r.links.Built := (hstart.run k).built
  have hself {n : Name} (hn : r.links.isAlias n = false) : r.links.canonical n = n :=
    Links.canonical_of_isAlias hn
  refine ⟨fun n hn => ⟨⟨fun he => ?_, hself⟩, fun ha => ?_⟩, fun n hn ha => ?_,
    fun x y hy ha => ?_⟩
  · rw [Links.isAlias_eq_false_iff, ← he]
    exact hbuilt.acyclic.not_alias_canonical n
  · have hfresh : (settings.registry : Registry κ).links.isAlias n = false :=
      Links.isAlias_eq_false_iff.2 (NameMap.getElem?_empty n)
    exact shadowed_of_alias hstart hfresh hn ha
  · rw [Request.resolve, Request.resolve, hself ha]
    exact r.find_of_names hn
  · rw [Request.resolve, hself ha]
    exact congrArg (fun b => some (Answer.flag b))
      (Registry.isTransitivelyDependent_of_dependent hy)

section Eclipsed

def plain : Client Unit (Request Unit) Unit where
  factory _ := return .ok ⟨0, .unit⟩
  early _ := return ⟨0, .unit⟩
  disposer _ := return .ok ()
  hear _ memory := memory

def eclipsing : Machine Unit (Request Unit) Unit :=
  .ofMain ({} : Settings).registry () (do
    let _ ← .ask (.install "a" ⟨0, .unit⟩)
    let _ ← .ask (.addDependency "x" "y")
    let _ ← .ask (.link "b" "a")
    let _ ← .ask (.link "z" "y"))

theorem recorded_names_addressable_eclipsing :
    let before := (run plain 2 eclipsing).registry
    "a" ∈ before.store.names ∧ before.links.isAlias "a" = false ∧
      (∃ o, before.store.finished["a"]? = some o ∧
        (before.start (.store (.holds "a"))).reply? = some (.flag true) ∧
        (before.start (.find "a")).reply? = some (.object (some o))) ∧
      "y" ∈ before.edges.dependentsOf "x" ∧
      (before.start (.edges (.isTransitivelyDependent "x" "y"))).reply? = some (.flag true) ∧
      (run plain 4 eclipsing).Records "a" ∧
      (run plain 4 eclipsing).registry.links.isAlias "a" = true ∧
      ∃ j < 4, (run plain j eclipsing).Shadows "a" := by
  intro before
  have ha : "a" ∈ before.store.names := by decide
  have hb : before.links.isAlias "a" = false := by decide
  have hy : "y" ∈ before.edges.dependentsOf "x" := by decide
  have hyb : before.links.isAlias "y" = false := by decide
  have hr : (run plain 4 eclipsing).Records "a" := .inl (.inl (.inr (.inr (.inr (by decide)))))
  have hra : (run plain 4 eclipsing).registry.links.isAlias "a" = true := by decide
  obtain ⟨-, hfound, hdependent⟩ := recorded_names_addressable plain {} () _ 2
  obtain ⟨hrecorded, -, -⟩ := recorded_names_addressable plain {} () _ 4
  obtain ⟨j, hj, hs, -⟩ := (hrecorded "a" hr).2 hra
  exact ⟨ha, hb, hfound "a" ha hb, hy, hdependent "x" "y" hy hyb, hr, hra, j, hj, hs⟩

/-- A name that has been made an alias is still recorded, and is not found under itself. -/
theorem recorded_names_eclipsed :
    let r := (run plain 4 eclipsing).registry
    r.store.names = ["a"] ∧
      (r.start ((Request.holds "a").resolve r.links)).reply? = some (.flag false) ∧
      (r.start ((Request.find "a").resolve r.links)).reply? = some (.object none) ∧
      "y" ∈ r.edges.dependentsOf (r.links.canonical "x") ∧
      (r.start ((Request.isTransitivelyDependent "x" "y").resolve r.links)).reply? =
        some (.flag false) := by
  exact ⟨by decide, rfl, rfl, by decide, rfl⟩

end Eclipsed

end Machine

end ObjectRegistry
