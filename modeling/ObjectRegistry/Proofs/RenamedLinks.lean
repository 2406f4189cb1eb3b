import ObjectRegistry.Proofs.Renaming

namespace ObjectRegistry.Links

open Relation

variable {f : Name → Option Name} {l l' : Links} {aka name newAlias newName : Name} {fault : Fault}
  {link new : Name × Name} {order before rest : List (Name × Name)}

/-- The ends of `new` are the new names of the ends of `link`. A link whose ends fall together
becomes no other. -/
def Becomes (f : Name → Option Name) (link new : Name × Name) : Prop :=
  f link.1 = some new.1 ∧ f link.2 = some new.2 ∧ new.1 ≠ new.2

/-- Some link of `order` becomes `new` when `new` is not among those that follow. -/
def Settles (f : Name → Option Name) (order : List (Name × Name)) (new : Name × Name) : Prop :=
  ∃ link rest, link :: rest <:+ order ∧ Becomes f link new ∧ new ∉ rest

theorem Becomes.unique {other : Name × Name} (h : Becomes f link new) (ho : Becomes f link other) :
    new = other :=
  Prod.ext (Option.some.inj (h.1.symm.trans ho.1)) (Option.some.inj (h.2.1.symm.trans ho.2.1))

theorem becomes_iff (ha : f link.1 = some newAlias) (hn : f link.2 = some newName)
    (hs : newName ≠ newAlias) : Becomes f link new ↔ new = (newAlias, newName) := by
  have h : Becomes f link (newAlias, newName) := ⟨ha, hn, Ne.symm hs⟩
  constructor
  · intro hnew
    exact hnew.unique h
  · rintro rfl
    exact h

theorem settles_nil : ¬Settles f [] new := by
  rintro ⟨link, rest, hs, -⟩
  exact List.cons_ne_nil _ _ (List.suffix_nil.1 hs)

theorem settles_cons :
    Settles f (link :: rest) new ↔ Becomes f link new ∧ new ∉ rest ∨ Settles f rest new := by
  constructor
  · rintro ⟨other, tail, hs, hb, hn⟩
    obtain he | hs := List.suffix_cons_iff.1 hs
    · obtain ⟨rfl, rfl⟩ := List.cons.inj he
      exact .inl ⟨hb, hn⟩
    · exact .inr ⟨other, tail, hs, hb, hn⟩
  · rintro (⟨hb, hn⟩ | ⟨other, tail, hs, hb, hn⟩)
    · exact ⟨link, rest, List.suffix_rfl, hb, hn⟩
    · exact ⟨other, tail, hs.trans (List.suffix_cons link rest), hb, hn⟩

theorem settles_self (hnodup : order.Nodup) (hn : new ∈ order) (hb : Becomes f new new) :
    Settles f order new := by
  obtain ⟨before, rest, rfl⟩ := List.append_of_mem hn
  exact ⟨new, rest, List.suffix_append before _, hb, (List.nodup_cons.1 hnodup.of_append_right).1⟩

theorem Settles.becomes (h : Settles f order new) : ∃ link ∈ order, Becomes f link new := by
  obtain ⟨link, rest, hs, hb, -⟩ := h
  exact ⟨link, hs.mem List.mem_cons_self, hb⟩

theorem not_settles_iff (hnodup : order.Nodup) (hl : link ∈ order) (hb : Becomes f link new) :
    ¬Settles f order new ↔
      ∃ before rest, order = before ++ new :: rest ∧
        ∀ other ∈ new :: rest, ¬Becomes f other new := by
  constructor
  · intro hnot
    obtain ⟨first, tail, rfl⟩ := List.append_of_mem hl
    have hnew : new ∈ tail := by
      by_contra hn
      exact hnot ⟨link, tail, List.suffix_append first _, hb, hn⟩
    obtain ⟨mid, rest, rfl⟩ := List.append_of_mem hnew
    refine ⟨first ++ link :: mid, rest, by rw [List.append_assoc, List.cons_append], ?_⟩
    intro other hother hob
    have hs : new :: rest <:+ first ++ link :: (mid ++ new :: rest) :=
      ⟨first ++ link :: mid, by rw [List.append_assoc, List.cons_append]⟩
    have hrest : new ∉ rest := (List.nodup_cons.1 (hs.sublist.nodup hnodup)).1
    obtain rfl | hother := List.mem_cons.1 hother
    · exact hnot ⟨other, rest, hs, hob, hrest⟩
    · obtain ⟨skipped, last, rfl⟩ := List.append_of_mem hother
      refine hnot ⟨other, last, .trans ⟨new :: skipped, rfl⟩ hs, hob, fun hn => hrest ?_⟩
      exact List.mem_append_right _ (List.mem_cons_of_mem _ hn)
  · rintro ⟨before, rest, rfl, hnone⟩ ⟨other, tail, hs, hob, hn⟩
    obtain hle | hle := List.suffix_or_suffix_of_suffix hs (List.suffix_append before _)
    · exact hnone other (hle.mem List.mem_cons_self) hob
    · obtain he | hle := List.suffix_cons_iff.1 hle
      · exact hnone other (he ▸ List.mem_cons_self) hob
      · exact hn (hle.mem List.mem_cons_self)

theorem settles_iff_of_self (hnodup : order.Nodup)
    (hself : ∀ link ∈ order, ∀ new ∈ order, Becomes f link new → Becomes f new new) :
    Settles f order new ↔ ∃ link ∈ order, Becomes f link new := by
  refine ⟨Settles.becomes, fun ⟨link, hl, hb⟩ => ?_⟩
  by_contra hnot
  obtain ⟨before, rest, rfl, hnone⟩ := (not_settles_iff hnodup hl hb).1 hnot
  have hnew : new ∈ before ++ new :: rest := List.mem_append_right before List.mem_cons_self
  exact hnone new List.mem_cons_self (hself link hl new hnew hb)

theorem becomes_self_of_settles (h : ∀ link ∈ order, Settles f order link) :
    ∀ link ∈ order, Becomes f link link := by
  induction order with
  | nil => exact fun link hl => absurd hl List.not_mem_nil
  | cons first rest ih =>
    have hrest : ∀ link ∈ rest, Becomes f link link := by
      refine ih fun link hl => ?_
      obtain ⟨-, hn⟩ | hs := settles_cons.1 (h link (List.mem_cons_of_mem _ hl))
      · exact absurd hl hn
      · exact hs
    intro link hl
    obtain rfl | hl := List.mem_cons.1 hl
    · obtain ⟨hb, -⟩ | hs := settles_cons.1 (h link List.mem_cons_self)
      · exact hb
      · obtain ⟨other, hother, hob⟩ := hs.becomes
        rwa [(hrest other hother).unique hob] at hob
    · exact hrest link hl

section Run

theorem points_erase_link (hp : l.Points aka name) :
    (l.erase aka).Points new.1 new.2 ↔ l.Points new.1 new.2 ∧ new ≠ (aka, name) := by
  rw [points_erase, and_comm]
  refine and_congr_right fun hnew => not_congr ⟨fun ha => ?_, fun he => congrArg Prod.fst he⟩
  rw [ha] at hnew
  exact Prod.ext ha (points_rightUnique hnew hp)

theorem points_renameLink (hp : l.Points aka name) (hr : renameLink f aka name l = .ok l') :
    l'.Points new.1 new.2 ↔
      l.Points new.1 new.2 ∧ new ≠ (aka, name) ∨ Becomes f (aka, name) new := by
  have hren := renames f aka name l
  rw [hr] at hren
  cases hren with
  | lost h =>
    rw [points_erase_link hp, or_iff_left]
    rintro ⟨ha, hn, -⟩
    simp only [ha, hn, reduceCtorEq, or_self] at h
  | collapsed ha hn =>
    rw [points_erase_link hp, or_iff_left]
    rintro ⟨ha', hn', hne⟩
    exact hne (Option.some.inj ((ha'.symm.trans ha).trans (hn.symm.trans hn')))
  | kept ha hn hs =>
    rw [becomes_iff ha hn hs]
    by_cases he : new = (aka, name)
    · simp only [he, hp, ne_eq, not_true_eq_false, and_false, or_true]
    · simp only [he, ne_eq, not_false_eq_true, and_true, or_false]
  | retargeted ha hn hs hne =>
    rw [becomes_iff ha hn hs, points_insert, ← points_erase, points_erase_link hp, or_comm,
      Prod.ext_iff (y := (aka, _))]
  | merged ha hn hs hm hq =>
    rw [becomes_iff ha hn hs, points_erase_link hp, or_iff_left_of_imp]
    rintro rfl
    exact ⟨hq, fun he => hm (congrArg Prod.fst he)⟩
  | moved ha hn hs hm hfree hc =>
    rw [becomes_iff ha hn hs, points_insert, points_erase_link hp, or_comm,
      Prod.ext_iff (y := (_, _)), and_iff_right_of_imp]
    rintro ⟨hnew, -⟩ rfl
    exact not_alias_iff.1 hfree _ hnew

theorem renameAll_cons_error (hr : renameLink f aka name l = .error fault) :
    renameAll f ((aka, name) :: rest) l = (some fault, l) := by
  rw [renameAll, hr]

theorem points_renameAll (hnodup : (order.map (·.1)).Nodup)
    (hp : ∀ link ∈ order, l.Points link.1 link.2) (hr : renameAll f order l = (none, l')) :
    l'.Points new.1 new.2 ↔ l.Points new.1 new.2 ∧ new ∉ order ∨ Settles f order new := by
  induction order generalizing l with
  | nil =>
    rw [renameAll, Prod.mk.injEq] at hr
    simp only [hr.2, List.not_mem_nil, not_false_eq_true, and_true, settles_nil, or_false]
  | cons link rest ih =>
    obtain ⟨aka, name⟩ := link
    rw [List.map_cons, List.nodup_cons] at hnodup
    have hlink : l.Points aka name := hp _ List.mem_cons_self
    cases hone : renameLink f aka name l with
    | error fault =>
      rw [renameAll_cons_error hone] at hr
      cases hr
    | ok next =>
      rw [renameAll_cons_ok hone] at hr
      have hstep (new : Name × Name) :
          next.Points new.1 new.2 ↔
            l.Points new.1 new.2 ∧ new ≠ (aka, name) ∨ Becomes f (aka, name) new :=
        points_renameLink hlink hone
      -- The aliases are all different, so the links that follow are still as they were.
      have hrest : ∀ other ∈ rest, next.Points other.1 other.2 := by
        intro other ho
        refine (hstep other).2 (.inl ⟨hp other (List.mem_cons_of_mem _ ho), fun he => hnodup.1 ?_⟩)
        exact List.mem_map.2 ⟨other, ho, congrArg Prod.fst he⟩
      rw [ih hnodup.2 hrest hr, hstep new, settles_cons, List.mem_cons, not_or]
      tauto

theorem renameAll_error (h : renameAll f order l = (some fault, l')) :
    ∃ before link rest, order = before ++ link :: rest ∧ renameAll f before l = (none, l') ∧
      renameLink f link.1 link.2 l' = .error fault := by
  induction order generalizing l with
  | nil =>
    rw [renameAll] at h
    cases h
  | cons link rest ih =>
    obtain ⟨aka, name⟩ := link
    cases hone : renameLink f aka name l with
    | error =>
      rw [renameAll_cons_error hone] at h
      cases h
      exact ⟨[], (aka, name), rest, rfl, rfl, hone⟩
    | ok next =>
      rw [renameAll_cons_ok hone] at h
      obtain ⟨before, other, tail, rfl, hbefore, hother⟩ := ih h
      exact ⟨(aka, name) :: before, other, tail, rfl, by rw [renameAll_cons_ok hone, hbefore],
        hother⟩

theorem renameLink_overriding (hr : renameLink f aka name l = .ok l') :
    l'.overriding = l.overriding := by
  have hren := renames f aka name l
  rw [hr] at hren
  cases hren <;> rfl

theorem renameAll_overriding (f : Name → Option Name) (order : List (Name × Name)) (l : Links) :
    (renameAll f order l).2.overriding = l.overriding := by
  induction order generalizing l with
  | nil => rfl
  | cons link rest ih =>
    obtain ⟨aka, name⟩ := link
    cases hone : renameLink f aka name l with
    | error => rw [renameAll_cons_error hone]
    | ok next => rw [renameAll_cons_ok hone, ih, renameLink_overriding hone]

end Run

section Snapshot

variable (ho : order.Perm l.target.toList)
include ho

theorem points_of_snapshot (he : order = before ++ rest) (hr : renameAll f before l = (none, l'))
    (new : Name × Name) : l'.Points new.1 new.2 ↔ new ∈ rest ∨ Settles f before new := by
  have hnodup := nodup_of_perm ho
  have hmem (link : Name × Name) : link ∈ order ↔ l.Points link.1 link.2 := mem_iff_of_perm ho
  subst he
  rw [List.map_append, List.nodup_append] at hnodup
  rw [points_renameAll hnodup.1 (fun link hl => (hmem link).1 (List.mem_append_left _ hl)) hr,
    ← hmem, List.mem_append]
  have hdisjoint : new ∈ before → new ∉ rest := fun hb hr =>
    hnodup.2.2 _ (List.mem_map_of_mem hb) _ (List.mem_map_of_mem hr) rfl
  tauto

theorem points_of_ok (hok : (renameAll f order l).1 = none) (new : Name × Name) :
    (renameAll f order l).2.Points new.1 new.2 ↔ Settles f order new := by
  have h := points_of_snapshot ho (List.append_nil order).symm (Prod.ext hok rfl) new
  rwa [or_iff_right List.not_mem_nil] at h

theorem eq_self_iff_of_snapshot (he : order = before ++ rest)
    (hr : renameAll f before l = (none, l')) :
    l' = l ↔ ∀ link ∈ before, Becomes f link link := by
  have hpoints := points_of_snapshot ho he hr
  have hmem (link : Name × Name) : link ∈ order ↔ l.Points link.1 link.2 := mem_iff_of_perm ho
  have hnodup : (before ++ rest).Nodup := he ▸ (nodup_of_perm ho).of_map _
  subst he
  constructor
  · intro hl
    refine becomes_self_of_settles fun link hb => ?_
    obtain hrest | hs := (hpoints link).1 (hl ▸ (hmem link).1 (List.mem_append_left _ hb))
    · exact (List.disjoint_of_nodup_append hnodup hb hrest).elim
    · exact hs
  · intro hfix
    refine ext_points ?_ fun a b => ?_
    · rw [← renameAll_overriding f before l, hr]
    · rw [hpoints (a, b), ← hmem (a, b), List.mem_append, or_comm]
      refine or_congr_left ⟨fun hs => ?_, fun hb => ?_⟩
      · obtain ⟨link, hl, hb⟩ := hs.becomes
        rwa [← (hfix link hl).unique hb]
      · exact settles_self hnodup.of_append_left hb (hfix _ hb)

end Snapshot

/-- If no link clashes then, whatever the order, just those links are left that some link becomes
while they are not among those still to be renamed. So a link that is left has come of another, and
one that comes of another is lost just when none becomes it from its own turn on. None is lost, and
the order does not matter, where each link that comes of another becomes itself. -/
theorem left_by_renaming (ho : order.Perm l.target.toList) (hok : (renameAll f order l).1 = none) :
    (∀ new : Name × Name,
      (renameAll f order l).2.Points new.1 new.2 ↔ Settles f order new) ∧
      (∀ new : Name × Name, (renameAll f order l).2.Points new.1 new.2 →
        ∃ link : Name × Name, l.Points link.1 link.2 ∧ Becomes f link new) ∧
      (∀ link new : Name × Name, l.Points link.1 link.2 → Becomes f link new →
        (¬(renameAll f order l).2.Points new.1 new.2 ↔
          ∃ before rest, order = before ++ new :: rest ∧
            ∀ other ∈ new :: rest, ¬Becomes f other new)) ∧
      ((∀ link new : Name × Name, l.Points link.1 link.2 → l.Points new.1 new.2 →
          Becomes f link new → Becomes f new new) →
        ∀ new : Name × Name, (renameAll f order l).2.Points new.1 new.2 ↔
          ∃ link : Name × Name, l.Points link.1 link.2 ∧ Becomes f link new) := by
  have hnodup : order.Nodup := (nodup_of_perm ho).of_map _
  have hmem (link : Name × Name) : l.Points link.1 link.2 ↔ link ∈ order :=
    (mem_iff_of_perm ho).symm
  have hleft := points_of_ok ho hok
  refine ⟨hleft, ?_⟩
  simp only [hmem, hleft]
  refine ⟨fun new hs => hs.becomes, fun link new hl hb => ?_, fun hself new => ?_⟩
  · exact not_settles_iff hnodup hl hb
  · exact settles_iff_of_self hnodup fun link hl new hn => hself link new hl hn

theorem crossed_toList : crossed.target.toList = [("a", "b"), ("c", "d")] := by decide

theorem crossed_swap : [("c", "d"), ("a", "b")].Perm crossed.target.toList :=
  crossed_toList ▸ List.Perm.swap _ _ _

def exchanging (n : Name) : Option Name :=
  if n = "a" then some "c" else if n = "c" then some "a"
  else if n = "b" then some "d" else if n = "d" then some "b" else some n

def shifting (n : Name) : Option Name :=
  if n = "a" then some "c" else if n = "b" then some "d"
  else if n = "c" then some "e" else if n = "d" then some "g" else some n

theorem left_by_renaming_shifted :
    ¬(renameAll shifting crossed.target.toList crossed).2.Points "c" "d" ∧
      (renameAll shifting [("c", "d"), ("a", "b")] crossed).2.Points "c" "d" := by
  have hb : Becomes shifting ("a", "b") ("c", "d") := by unfold Becomes; decide
  have hlost : ∀ other ∈ [("c", "d")], ¬Becomes shifting other ("c", "d") := by
    unfold Becomes
    decide
  have hl : crossed.Points "a" "b" := by unfold Points; decide
  obtain ⟨-, -, hiff, -⟩ := left_by_renaming (f := shifting) (List.Perm.refl crossed.target.toList)
    (by decide)
  obtain ⟨hleft, -⟩ := left_by_renaming (f := shifting) crossed_swap (by decide)
  refine ⟨(hiff ("a", "b") ("c", "d") hl hb).2 ⟨[("a", "b")], [], crossed_toList, hlost⟩, ?_⟩
  exact (hleft ("c", "d")).2 ⟨("a", "b"), [], List.suffix_cons _ _, hb, List.not_mem_nil⟩

/-- Two links that run in no circle change places. In either order one of them is lost, and not
the same one. -/
theorem one_lost_in_exchange :
    crossed.Acyclic ∧
      (∀ order ∈ [[("a", "b"), ("c", "d")], [("c", "d"), ("a", "b")]],
        order.Perm crossed.target.toList ∧ (renameAll exchanging order crossed).1 = none ∧
          ¬∀ new : Name × Name, (renameAll exchanging order crossed).2.Points new.1 new.2 ↔
            ∃ link : Name × Name, crossed.Points link.1 link.2 ∧ Becomes exchanging link new) ∧
      (renameAll exchanging [("a", "b"), ("c", "d")] crossed).2.target.toList = [("a", "b")] ∧
      (renameAll exchanging [("c", "d"), ("a", "b")] crossed).2.target.toList = [("c", "d")] := by
  have hab : Becomes exchanging ("c", "d") ("a", "b") := by unfold Becomes; decide
  have hcd : Becomes exchanging ("a", "b") ("c", "d") := by unfold Becomes; decide
  have hpa : crossed.Points "a" "b" := by unfold Points; decide
  have hpc : crossed.Points "c" "d" := by unfold Points; decide
  have hfirst : (renameAll exchanging [("a", "b"), ("c", "d")] crossed).2.target["c"]? ≠
      some "d" := by decide
  have hsecond : (renameAll exchanging [("c", "d"), ("a", "b")] crossed).2.target["a"]? ≠
      some "b" := by decide
  refine ⟨crossed_acyclic, List.forall_mem_cons.2 ⟨?_, List.forall_mem_singleton.2 ?_⟩,
    by decide, by decide⟩
  · refine ⟨crossed_toList ▸ .refl _, by decide, fun h => hfirst ?_⟩
    exact (h ("c", "d")).2 ⟨("a", "b"), hpa, hcd⟩
  · refine ⟨crossed_swap, by decide, fun h => hsecond ?_⟩
    exact (h ("a", "b")).2 ⟨("c", "d"), hpc, hab⟩

/-- A clash leaves the links before it renamed and the others as they were. So nothing has changed
just when each link before it becomes itself. -/
theorem left_by_clash (ho : order.Perm l.target.toList)
    (hc : renameAll f order l = (some fault, l')) :
    ∃ before link rest, order = before ++ link :: rest ∧
      Renames f link.1 link.2 l' (.error fault) ∧
      (∀ new : Name × Name, l'.Points new.1 new.2 ↔ new ∈ link :: rest ∨ Settles f before new) ∧
      (l' = l ↔ ∀ other ∈ before, Becomes f other other) := by
  obtain ⟨before, link, rest, he, hbefore, hlink⟩ := renameAll_error hc
  refine ⟨before, link, rest, he, ?_, points_of_snapshot ho he hbefore,
    eq_self_iff_of_snapshot ho he hbefore⟩
  rw [← hlink]
  exact renames f link.1 link.2 l'

def merging (n : Name) : Option Name := if n = "a" ∨ n = "c" then some "e" else some n

theorem left_by_clash_merged :
    renameAll merging [("c", "d"), ("a", "b")] crossed =
        (some (.aliasTaken "e" "b" "b"), (crossed.erase "c").insert "d" "e") ∧
      (crossed.erase "c").insert "d" "e" ≠ crossed := by
  have hclash : renameAll merging [("c", "d"), ("a", "b")] crossed =
      (some (.aliasTaken "e" "b" "b"), (crossed.erase "c").insert "d" "e") := rfl
  obtain ⟨before, link, rest, he, -, hpoints, hself⟩ := left_by_clash crossed_swap hclash
  have hnew : ("e", "d") ∉ before ++ link :: rest := by
    rw [← he]
    decide
  have hmoved : ((crossed.erase "c").insert "d" "e").Points "e" "d" :=
    points_insert.2 (.inl ⟨rfl, rfl⟩)
  refine ⟨hclash, fun heq => ?_⟩
  obtain hrest | hs := (hpoints ("e", "d")).1 hmoved
  · exact hnew (List.mem_append_right _ hrest)
  · obtain ⟨other, hother, hb⟩ := hs.becomes
    have hfix := (hself.1 heq other hother).unique hb
    exact hnew (List.mem_append_left _ (hfix ▸ hother))

/-- In either order the second link is refused, and the first has been renamed. -/
theorem refused_half_renamed :
    crossed.Acyclic ∧
      ∀ order ∈ [[("a", "b"), ("c", "d")], [("c", "d"), ("a", "b")]],
        order.Perm crossed.target.toList ∧
          (∃ newName name, (renameAll merging order crossed).1 =
            some (.aliasTaken "e" newName name)) ∧
          (renameAll merging order crossed).2 ≠ crossed := by
  have hmoved : ∀ order ∈ [[("a", "b"), ("c", "d")], [("c", "d"), ("a", "b")]],
      (renameAll merging order crossed).2.target["e"]? ≠ crossed.target["e"]? := by decide
  have hne : ∀ order ∈ [[("a", "b"), ("c", "d")], [("c", "d"), ("a", "b")]],
      (renameAll merging order crossed).2 ≠ crossed := fun order ho he =>
    hmoved order ho (congrArg (fun l : Links => l.target["e"]?) he)
  refine ⟨crossed_acyclic, List.forall_mem_cons.2 ⟨?_, List.forall_mem_singleton.2 ?_⟩⟩
  · exact ⟨crossed_toList ▸ .refl _, ⟨"d", "d", rfl⟩, hne _ (by decide)⟩
  · exact ⟨crossed_swap, ⟨"b", "b", rfl⟩, hne _ (by decide)⟩

end ObjectRegistry.Links
