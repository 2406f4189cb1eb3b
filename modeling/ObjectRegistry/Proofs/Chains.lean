import Mathlib.Data.List.Nodup
import Mathlib.Logic.Relation
import ObjectRegistry.Links.Op
import ObjectRegistry.Proofs.Search

namespace ObjectRegistry.Links

open Relation

def Points (l : Links) (a b : Name) : Prop := l.target[a]? = some b

def Acyclic (l : Links) : Prop := ∀ n, ¬TransGen l.Points n n

/-- What comes of empty links by any calls that make and remove them. -/
inductive Built : Links → Prop where
  | empty (overriding : Bool) : Built { overriding }
  | link {l : Links} (h : Built l) (name aka : Name) : Built ((Op.link name aka).update l)
  | unlink {l : Links} (h : Built l) (aka : Name) : Built ((Op.unlink aka).update l)

variable {l : Links} {a b n m name aka : Name} {links : List (Name × Name)}

theorem isAlias_iff : l.isAlias n = true ↔ ∃ m, l.Points n m := by
  rw [isAlias, Std.ExtTreeMap.contains_eq_isSome_getElem?, Option.isSome_iff_exists]
  exact Iff.rfl

theorem isAlias_eq_false_iff : l.isAlias n = false ↔ l.target[n]? = none := by
  rw [isAlias, Std.ExtTreeMap.contains_eq_isSome_getElem?, Option.isSome_eq_false_iff,
    Option.isNone_iff_eq_none]

theorem not_alias_iff : l.target[n]? = none ↔ ∀ m, ¬l.Points n m :=
  Option.eq_none_iff_forall_ne_some

theorem not_points_empty (overriding : Bool) (a b : Name) :
    ¬({ overriding } : Links).Points a b :=
  not_alias_iff.1 (NameMap.getElem?_empty a) b

theorem ext_points {l' : Links} (ho : l.overriding = l'.overriding)
    (hp : ∀ a b, l.Points a b ↔ l'.Points a b) : l = l' := by
  obtain ⟨t, o⟩ := l
  obtain ⟨t', o'⟩ := l'
  obtain rfl : o = o' := ho
  obtain rfl : t = t' := Std.ExtTreeMap.ext_getElem? fun a => Option.ext fun b => hp a b
  rfl

theorem mem_keys_of_points (h : l.Points a b) : a ∈ l.target.keys := by
  rw [Std.ExtTreeMap.mem_keys, ← Std.ExtTreeMap.contains_iff_mem]
  exact isAlias_iff.2 ⟨b, h⟩

section Order

variable (hp : links.Perm l.target.toList)
include hp

theorem nodup_of_perm : (links.map (·.1)).Nodup := by
  rw [(hp.map _).nodup_iff, Std.ExtTreeMap.map_fst_toList_eq_keys]
  exact Std.ExtTreeMap.nodup_keys

theorem mem_iff_of_perm : (a, b) ∈ links ↔ l.Points a b :=
  hp.mem_iff.trans Std.ExtTreeMap.mem_toList_iff_getElem?_eq_some

end Order

section Chains

theorem chainEnd?_eq_some {bound : Nat} (h : l.chainEnd? bound n = some m) :
    ReflTransGen l.Points n m ∧ l.target[m]? = none := by
  induction bound generalizing n with
  | zero =>
    rw [chainEnd?.eq_def] at h
    split at h
    · case h_1 hn =>
      cases h
      exact ⟨.refl, hn⟩
    · cases h
  | succ bound ih =>
    rw [chainEnd?.eq_def] at h
    split at h
    · case h_1 hn =>
      cases h
      exact ⟨.refl, hn⟩
    · case h_2 k hk =>
      obtain ⟨hpath, hm⟩ := ih h
      exact ⟨.head hk hpath, hm⟩

/-- A chain on which no end has been found within a bound goes through as many aliases. -/
theorem aliases_of_chainEnd?_eq_none {bound : Nat} (h : l.chainEnd? bound n = none) :
    ∃ names : List Name, names.length = bound + 1 ∧ names ⊆ l.target.keys ∧
      names.Pairwise (TransGen l.Points) ∧ ∀ k ∈ names, ReflTransGen l.Points n k := by
  induction bound generalizing n with
  | zero =>
    rw [chainEnd?.eq_def] at h
    split at h
    · cases h
    · case h_2 m hm =>
      refine ⟨[n], rfl, List.cons_subset.2 ⟨mem_keys_of_points hm, List.nil_subset _⟩,
        List.pairwise_singleton _ _, fun k hk => ?_⟩
      rw [List.mem_singleton.1 hk]
  | succ bound ih =>
    rw [chainEnd?.eq_def] at h
    split at h
    · cases h
    · case h_2 m hm =>
      obtain ⟨names, hlen, hkeys, hpair, hpath⟩ := ih h
      refine ⟨n :: names, by rw [List.length_cons, hlen],
        List.cons_subset.2 ⟨mem_keys_of_points hm, hkeys⟩,
        List.pairwise_cons.2 ⟨fun k hk => TransGen.head' hm (hpath k hk), hpair⟩, fun k hk => ?_⟩
      obtain rfl | hk := List.mem_cons.1 hk
      · exact .refl
      · exact .head hm (hpath k hk)

theorem Acyclic.chainEnd?_eq_canonical (h : l.Acyclic) (n : Name) :
    l.chainEnd? l.target.size n = some (l.canonical n) := by
  cases he : l.chainEnd? l.target.size n with
  | some m => rw [canonical, he, Option.getD_some]
  | none =>
    obtain ⟨names, hlen, hkeys, hpair, -⟩ := aliases_of_chainEnd?_eq_none he
    have hnodup : names.Nodup := by
      refine List.Pairwise.imp (fun {a b} hab hne => ?_) hpair
      subst hne
      exact h a hab
    have hle := hnodup.length_le_of_subset hkeys
    rw [hlen, Std.ExtTreeMap.length_keys] at hle
    omega

theorem Acyclic.reaches_canonical (h : l.Acyclic) (n : Name) :
    ReflTransGen l.Points n (l.canonical n) :=
  (chainEnd?_eq_some (h.chainEnd?_eq_canonical n)).1

theorem Acyclic.not_alias_canonical (h : l.Acyclic) (n : Name) :
    l.target[l.canonical n]? = none :=
  (chainEnd?_eq_some (h.chainEnd?_eq_canonical n)).2

theorem canonical_of_not_alias (h : l.target[n]? = none) : l.canonical n = n := by
  rw [canonical, chainEnd?.eq_def, h, Option.getD_some]

theorem canonical_of_isAlias (h : l.isAlias n = false) : l.canonical n = n :=
  canonical_of_not_alias (isAlias_eq_false_iff.1 h)

theorem Acyclic.canonical_canonical (h : l.Acyclic) (n : Name) :
    l.canonical (l.canonical n) = l.canonical n :=
  canonical_of_not_alias (h.not_alias_canonical n)

theorem points_rightUnique : Relator.RightUnique l.Points := fun _ _ _ hb hc =>
  Option.some.inj (hb.symm.trans hc)

theorem eq_of_reaches (hn : l.target[n]? = none) (h : ReflTransGen l.Points n m) : m = n := by
  obtain rfl | ⟨k, hk, -⟩ := ReflTransGen.cases_head h
  · rfl
  · exact absurd hk (not_alias_iff.1 hn k)

theorem Acyclic.canonical_eq_iff (h : l.Acyclic) :
    l.canonical n = m ↔ ReflTransGen l.Points n m ∧ l.target[m]? = none := by
  constructor
  · rintro rfl
    exact ⟨h.reaches_canonical n, h.not_alias_canonical n⟩
  · rintro ⟨hpath, hm⟩
    -- Of two chains from one name one goes on from the other, and neither end is an alias.
    obtain hc | hc := hpath.total_of_right_unique points_rightUnique (h.reaches_canonical n)
    · exact eq_of_reaches hm hc
    · exact (eq_of_reaches (h.not_alias_canonical n) hc).symm

theorem Acyclic.canonical_eq_of_reaches (h : l.Acyclic) (hm : ReflTransGen l.Points m n) :
    l.canonical m = l.canonical n :=
  h.canonical_eq_iff.2 ⟨hm.trans (h.reaches_canonical n), h.not_alias_canonical n⟩

end Chains

section Circle

theorem sources_eq_map (links : List (Name × Name)) (n : Name) :
    sources links n = (links.filter (·.2 = n)).map (·.1) := by
  rw [sources, ← List.filterMap_eq_map', List.filterMap_filter]
  refine List.filterMap_congr fun link _ => ?_
  simp only [decide_eq_true_eq]

theorem mem_sources_iff : aka ∈ sources links n ↔ (aka, n) ∈ links := by
  rw [sources_eq_map, List.mem_map]
  constructor
  · rintro ⟨link, hl, rfl⟩
    obtain ⟨hl, hn⟩ := List.mem_filter.1 hl
    rwa [← of_decide_eq_true hn]
  · intro h
    exact ⟨(aka, n), List.mem_filter.2 ⟨h, decide_eq_true rfl⟩, rfl⟩

theorem mem_sources : aka ∈ sources l.target.toList n ↔ l.Points aka n :=
  mem_sources_iff.trans Std.ExtTreeMap.mem_toList_iff_getElem?_eq_some

theorem mem_leadingTo : aka ∈ l.leadingTo n ↔ TransGen l.Points aka n := by
  rw [leadingTo, mem_gather, Std.ExtTreeMap.map_fst_toList_eq_keys]
  constructor
  · intro h
    induction h with
    | root _ hp => exact .single (mem_sources.1 hp)
    | step _ _ hb ih => exact .head (mem_sources.1 hb) ih
  · intro h
    induction h using TransGen.head_induction_on with
    | single h => exact .root (mem_keys_of_points h) (mem_sources.2 h)
    | head h _ ih => exact .step ih (mem_keys_of_points h) (mem_sources.2 h)

theorem hasAlias_iff : l.hasAlias n aka = true ↔ TransGen l.Points aka n := by
  rw [hasAlias, decide_eq_true_eq, mem_leadingTo]

theorem points_insert :
    (l.insert name aka).Points a b ↔ a = aka ∧ b = name ∨ a ≠ aka ∧ l.Points a b := by
  simp only [Points, insert, NameMap.getElem?_insert]
  by_cases h : aka = a
  · simp only [h, ↓reduceIte, Option.some.injEq, true_and, ne_eq, not_true_eq_false, false_and,
      or_false, eq_comm]
  · simp only [h, ↓reduceIte, Ne.symm h, false_and, ne_eq, not_false_eq_true, true_and, false_or]

theorem points_erase : (l.erase aka).Points a b ↔ a ≠ aka ∧ l.Points a b := by
  simp only [Points, erase, NameMap.getElem?_erase, Option.ite_none_left_eq_some, ne_eq,
    @eq_comm _ aka]

def SameBut (aka : Name) (l l' : Links) : Prop := ∀ a b, a ≠ aka → (l'.Points a b ↔ l.Points a b)

theorem sameBut_refl : SameBut aka l l := fun _ _ _ => Iff.rfl

theorem sameBut_insert : SameBut aka l (l.insert name aka) := fun a b ha => by
  rw [points_insert, or_iff_right fun h => ha h.1, and_iff_right ha]

theorem sameBut_erase : SameBut aka l (l.erase aka) := fun a b ha => by
  rw [points_erase, and_iff_right ha]

/-- A path to `aka` has no need to follow the link of `aka`. -/
theorem SameBut.reaches {l' : Links} (hl : SameBut aka l l') (h : ReflTransGen l.Points a aka) :
    ReflTransGen l'.Points a aka := by
  induction h using ReflTransGen.head_induction_on with
  | refl => exact .refl
  | @head a b hab _ ih =>
    by_cases ha : a = aka
    · rw [ha]
    · exact .head ((hl a b ha).2 hab) ih

theorem of_reaches_insert (h : TransGen (l.insert name aka).Points a b) :
    TransGen l.Points a b ∨ ReflTransGen l.Points a aka ∧ ReflTransGen l.Points name b := by
  induction h with
  | single hab =>
    obtain ⟨rfl, rfl⟩ | ⟨-, hab⟩ := points_insert.1 hab
    · exact .inr ⟨.refl, .refl⟩
    · exact .inl (.single hab)
  | tail _ hbc ih =>
    obtain ⟨rfl, rfl⟩ | ⟨-, hbc⟩ := points_insert.1 hbc
    · obtain hab | ⟨haa, -⟩ := ih
      · exact .inr ⟨hab.to_reflTransGen, .refl⟩
      · exact .inr ⟨haa, .refl⟩
    · obtain hab | ⟨haa, hnb⟩ := ih
      · exact .inl (hab.tail hbc)
      · exact .inr ⟨haa, hnb.tail hbc⟩

theorem Acyclic.insert_iff (h : l.Acyclic) :
    (l.insert name aka).Acyclic ↔ ¬ReflTransGen l.Points name aka := by
  constructor
  · intro hnew hpath
    have hlink : (l.insert name aka).Points aka name := points_insert.2 (.inl ⟨rfl, rfl⟩)
    exact hnew aka (TransGen.head' hlink (sameBut_insert.reaches hpath))
  · intro hpath n hn
    -- A circle over the new link leads from the target back to the alias without it.
    obtain hn | ⟨hna, hnn⟩ := of_reaches_insert hn
    · exact h n hn
    · exact hpath (hnn.trans hna)

theorem Acyclic.erase (h : l.Acyclic) (aka : Name) : (l.erase aka).Acyclic := by
  intro n hn
  exact h n (TransGen.mono (fun a b hab => (points_erase.1 hab).2) n n hn)

theorem hasAlias_of_ne (h : name ≠ aka) :
    l.hasAlias aka name = true ↔ ReflTransGen l.Points name aka := by
  rw [hasAlias_iff, reflTransGen_iff_eq_or_transGen]
  exact ⟨.inr, fun hr => hr.resolve_left (Ne.symm h)⟩

end Circle

inductive Linking (l : Links) (name aka : Name) : Except Fault Links → Prop where
  | nameless (hn : name = "" ∨ aka = "") : Linking l name aka (.error .emptyName)
  | self (hn : name ≠ "" ∧ aka ≠ "") (hs : name = aka) : Linking l name aka (.ok (l.erase aka))
  | kept (hn : name ≠ "" ∧ aka ≠ "") (hs : name ≠ aka) (hp : l.Points aka name) :
    Linking l name aka (.ok l)
  | taken {registered : Name} (hn : name ≠ "" ∧ aka ≠ "") (hs : name ≠ aka)
    (hp : l.Points aka registered) (hr : registered ≠ name) (ho : l.overriding = false) :
    Linking l name aka (.error (.aliasTaken aka name registered))
  | circular (hn : name ≠ "" ∧ aka ≠ "") (hs : name ≠ aka) (hp : ¬l.Points aka name)
    (ho : l.target[aka]? = none ∨ l.overriding = true) (hc : ReflTransGen l.Points name aka) :
    Linking l name aka (.error (.circularAlias aka name))
  | added (hn : name ≠ "" ∧ aka ≠ "") (hs : name ≠ aka) (hp : ¬l.Points aka name)
    (ho : l.target[aka]? = none ∨ l.overriding = true) (hc : ¬ReflTransGen l.Points name aka) :
    Linking l name aka (.ok (l.insert name aka))

theorem linking_insert? (hn : name ≠ "" ∧ aka ≠ "") (hs : name ≠ aka) (hp : ¬l.Points aka name)
    (ho : l.target[aka]? = none ∨ l.overriding = true) :
    Linking l name aka (l.insert? name aka) := by
  rw [insert?]
  split
  · case isTrue hc => exact .circular hn hs hp ho ((hasAlias_of_ne hs).1 hc)
  · case isFalse hc => exact .added hn hs hp ho (mt (hasAlias_of_ne hs).2 hc)

theorem linking (l : Links) (name aka : Name) : Linking l name aka (l.link name aka) := by
  rw [link]
  split
  · case isTrue hn => exact .nameless hn
  · case isFalse hn =>
    rw [not_or] at hn
    split
    · case isTrue hs => exact .self hn hs.symm
    · case isFalse hs =>
      have hs : name ≠ aka := Ne.symm hs
      split
      · case h_1 hp => exact linking_insert? hn hs (not_alias_iff.1 hp name) (.inl hp)
      · case h_2 registered hp =>
        split
        · case isTrue hr => exact .kept hn hs (hr ▸ hp)
        · case isFalse hr =>
          split
          · case isTrue ho =>
            refine linking_insert? hn hs (fun h => hr ?_) (.inr ho)
            exact Option.some.inj (hp.symm.trans h)
          · case isFalse ho => exact .taken hn hs hp hr (Bool.eq_false_iff.2 ho)

theorem Acyclic.update_link (h : l.Acyclic) (name aka : Name) :
    ((Op.link name aka).update l).Acyclic := by
  have hl := l.linking name aka
  rw [Op.update]
  generalize l.link name aka = outcome at hl
  cases hl with
  | nameless | kept | taken | circular => exact h
  | self => exact h.erase aka
  | added hn hs hp ho hc => exact h.insert_iff.2 hc

theorem Acyclic.update_unlink (h : l.Acyclic) (aka : Name) :
    ((Op.unlink aka).update l).Acyclic := by
  rw [Op.update, unlink]
  split
  · exact h.erase aka
  · exact h

def Named (l : Links) : Prop := ∀ a b, l.Points a b → a ≠ "" ∧ b ≠ ""

theorem Named.erase (h : l.Named) (aka : Name) : (l.erase aka).Named := by
  intro a b hab
  exact h a b (points_erase.1 hab).2

theorem Named.update_link (h : l.Named) (name aka : Name) :
    ((Op.link name aka).update l).Named := by
  have hl := l.linking name aka
  rw [Op.update]
  generalize l.link name aka = outcome at hl
  cases hl with
  | nameless | kept | taken | circular => exact h
  | self => exact h.erase aka
  | added hn =>
    intro a b hab
    obtain ⟨rfl, rfl⟩ | ⟨-, hab⟩ := points_insert.1 hab
    · exact ⟨hn.2, hn.1⟩
    · exact h a b hab

theorem Named.update_unlink (h : l.Named) (aka : Name) : ((Op.unlink aka).update l).Named := by
  rw [Op.update, unlink]
  split
  · exact h.erase aka
  · exact h

theorem Built.acyclic (h : l.Built) : l.Acyclic := by
  induction h with
  | empty overriding =>
    intro n hn
    obtain ⟨m, hm, -⟩ := TransGen.head'_iff.1 hn
    exact not_points_empty overriding n m hm
  | link _ name aka ih => exact ih.update_link name aka
  | unlink _ aka ih => exact ih.update_unlink aka

theorem Built.named (h : l.Built) : l.Named := by
  induction h with
  | empty overriding => exact fun a b hab => absurd hab (not_points_empty overriding a b)
  | link _ name aka ih => exact ih.update_link name aka
  | unlink _ aka ih => exact ih.update_unlink aka

theorem Built.canonical_ne_empty (h : l.Built) (hn : n ≠ "") : l.canonical n ≠ "" := by
  obtain he | ⟨b, -, hb⟩ := ReflTransGen.cases_tail (h.acyclic.reaches_canonical n)
  · rwa [he]
  · exact (h.named _ _ hb).2

theorem link_circular_iff (l : Links) (hn : name ≠ "" ∧ aka ≠ "") (hs : name ≠ aka) (a b : Name) :
    l.link name aka = .error (.circularAlias a b) ↔
      (a = aka ∧ b = name) ∧ l.target[aka]? ≠ some name ∧
        (l.target[aka]? = none ∨ l.overriding = true) ∧ ReflTransGen l.Points name aka := by
  have hl := l.linking name aka
  generalize l.link name aka = outcome at hl
  cases hl with
  | nameless he => exact absurd he (not_or.2 hn)
  | self _ he => exact absurd he hs
  | kept _ _ hp =>
    exact ⟨fun h => (by cases h), fun h => absurd hp h.2.1⟩
  | taken _ _ hp hr ho =>
    refine ⟨fun h => (by cases h), fun h => ?_⟩
    obtain hnone | hover := h.2.2.1
    · rw [hp] at hnone
      cases hnone
    · rw [ho] at hover
      cases hover
  | circular _ _ hp ho hc =>
    refine ⟨fun h => ?_, fun h => ?_⟩
    · cases h
      exact ⟨⟨rfl, rfl⟩, hp, ho, hc⟩
    · rw [h.1.1, h.1.2]
  | added _ _ hp ho hc => exact ⟨fun h => (by cases h), fun h => absurd h.2.2.2 hc⟩

/-- Links made and removed one by one run in no circle and leave no name empty, so the chain from
any name has an end, which is no alias. A link is refused as circular just when it is new, may be
made, and would close a circle, and nothing changes when it is refused for this or any reason. -/
theorem chains_end_and_circles_are_refused (h : l.Built) :
    l.Acyclic ∧ l.Named ∧
      (∀ n, l.chainEnd? l.target.size n = some (l.canonical n) ∧
        ReflTransGen l.Points n (l.canonical n) ∧ l.isAlias (l.canonical n) = false) ∧
      (∀ name aka, name ≠ "" → aka ≠ "" → name ≠ aka →
        (∀ a b, l.link name aka = .error (.circularAlias a b) ↔
          (a = aka ∧ b = name) ∧ l.target[aka]? ≠ some name ∧
            (l.target[aka]? = none ∨ l.overriding = true) ∧ ReflTransGen l.Points name aka) ∧
        (ReflTransGen l.Points name aka ↔ ¬(l.insert name aka).Acyclic)) ∧
      ∀ name aka fault, l.link name aka = .error fault → (Op.link name aka).update l = l := by
  have hac := h.acyclic
  refine ⟨hac, h.named, fun n => ?_, fun name aka hname haka hs => ?_,
    fun name aka fault hf => ?_⟩
  · exact ⟨hac.chainEnd?_eq_canonical n, hac.reaches_canonical n,
      isAlias_eq_false_iff.2 (hac.not_alias_canonical n)⟩
  · exact ⟨fun a b => link_circular_iff l ⟨hname, haka⟩ hs a b, by rw [hac.insert_iff, not_not]⟩
  · rw [Op.update, hf]
    rfl

def threefold : Links := (Op.link "b" "c").update ((Op.link "a" "b").update {})

theorem threefold_acyclic : threefold.Acyclic :=
  (((Built.empty true).link "a" "b").link "b" "c").acyclic

theorem chains_end_and_circles_are_refused_threefold :
    threefold.Built ∧ threefold.canonical "c" = "a" ∧
      threefold.link "c" "a" = .error (.circularAlias "a" "c") ∧
      ¬(threefold.insert "c" "a").Acyclic := by
  have hb : threefold.Built := ((Built.empty true).link "a" "b").link "b" "c"
  obtain ⟨-, -, -, hlink, -⟩ := chains_end_and_circles_are_refused hb
  obtain ⟨hcircular, hclosed⟩ := hlink "c" "a" (by decide) (by decide) (by decide)
  have hpath : ReflTransGen threefold.Points "c" "a" :=
    (ReflTransGen.single (b := "b") (by unfold Points; decide)).tail (by unfold Points; decide)
  exact ⟨hb, by decide, (hcircular "a" "c").2 ⟨⟨rfl, rfl⟩, by decide, by decide, hpath⟩,
    hclosed.1 hpath⟩

end ObjectRegistry.Links
