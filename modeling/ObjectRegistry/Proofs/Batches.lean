import Mathlib.Data.List.Forall2
import ObjectRegistry.Proofs.Chains

namespace ObjectRegistry.Links

open Relation

variable {l l' : Links} {aka name : Name} {links order rest : List (Name × Name)}
  {answers : List Answer}

/-- Asks for one link after another, whether or not those before were made. A link is given by its
alias and its name. -/
def linkAll : List (Name × Name) → Links → List Answer × Links
  | [], l => ([], l)
  | (aka, name) :: rest, l =>
    let (answers, left) := linkAll rest ((Op.link name aka).update l)
    ((Op.link name aka).answer l :: answers, left)

/-- Links that can each be made on their own, with an alias for each. -/
structure Batch (links : List (Name × Name)) : Prop where
  named : ∀ link ∈ links, link.2 ≠ "" ∧ link.1 ≠ ""
  proper : ∀ link ∈ links, link.2 ≠ link.1
  nodup : (links.map (·.1)).Nodup

def Circle (links : List (Name × Name)) : Prop := ∃ n, TransGen (fun a b => (a, b) ∈ links) n n

def made : Answer := .settled (.ok ())

def refused (link : Name × Name) : Answer := .settled (.error (.circularAlias link.1 link.2))

/-- The course of a batch each of whose aliases is new when its turn comes:
`Takes links l answers l'` holds if the calls for `links` get these answers and lead from `l` to
`l'`. -/
inductive Takes : List (Name × Name) → Links → List Answer → Links → Prop where
  | nil (l : Links) : Takes [] l [] l
  | making {aka name : Name} {rest : List (Name × Name)} {l l' : Links} {answers : List Answer}
    (hfree : l.target[aka]? = none) (hc : ¬ReflTransGen l.Points name aka)
    (h : Takes rest (l.insert name aka) answers l') :
    Takes ((aka, name) :: rest) l (made :: answers) l'
  | refusing {aka name : Name} {rest : List (Name × Name)} {l l' : Links} {answers : List Answer}
    (hc : ReflTransGen l.Points name aka) (h : Takes rest l answers l') :
    Takes ((aka, name) :: rest) l (refused (aka, name) :: answers) l'

theorem Batch.tail (h : Batch ((aka, name) :: rest)) : Batch rest where
  named link hl := h.named link (List.mem_cons_of_mem _ hl)
  proper link hl := h.proper link (List.mem_cons_of_mem _ hl)
  nodup := (List.nodup_cons.1 h.nodup).2

theorem Batch.perm (h : Batch links) (hp : order.Perm links) : Batch order where
  named link hl := h.named link (hp.mem_iff.1 hl)
  proper link hl := h.proper link (hp.mem_iff.1 hl)
  nodup := (hp.map _).nodup_iff.2 h.nodup

theorem link_free (hn : name ≠ "" ∧ aka ≠ "") (hs : name ≠ aka) (hfree : l.target[aka]? = none) :
    l.link name aka = .ok (l.insert name aka) ∧ ¬ReflTransGen l.Points name aka ∨
      l.link name aka = .error (.circularAlias aka name) ∧ ReflTransGen l.Points name aka := by
  have hl := l.linking name aka
  generalize l.link name aka = outcome at hl
  cases hl with
  | nameless he => exact absurd he (not_or.2 hn)
  | self _ he => exact absurd he hs
  | kept _ _ hp | taken _ _ hp => exact absurd hp (not_alias_iff.1 hfree _)
  | circular _ _ _ _ hc => exact .inr ⟨rfl, hc⟩
  | added _ _ _ _ hc => exact .inl ⟨rfl, hc⟩

theorem Batch.takes (h : Batch links) (hfree : ∀ link ∈ links, l.target[link.1]? = none) :
    Takes links l (linkAll links l).1 (linkAll links l).2 := by
  induction links generalizing l with
  | nil => exact .nil l
  | cons link rest ih =>
    obtain ⟨aka, name⟩ := link
    have hhere := hfree (aka, name) List.mem_cons_self
    have hlater : ∀ link ∈ rest, l.target[link.1]? = none := fun link hl =>
      hfree link (List.mem_cons_of_mem _ hl)
    rw [linkAll, Op.answer, Op.update]
    obtain ⟨hok, hc⟩ | ⟨herror, hc⟩ :=
      link_free (h.named _ List.mem_cons_self) (h.proper _ List.mem_cons_self) hhere
    · rw [hok]
      refine .making hhere hc (ih h.tail fun link hl => ?_)
      -- No later link has the same alias.
      have hne : aka ≠ link.1 := fun he =>
        (List.nodup_cons.1 h.nodup).1 (List.mem_map.2 ⟨link, hl, he.symm⟩)
      rw [insert, NameMap.getElem?_insert, if_neg hne]
      exact hlater link hl
    · rw [herror]
      exact .refusing hc (ih h.tail hlater)

namespace Takes

theorem outcomes (h : Takes links l answers l') :
    List.Forall₂ (fun link answer => answer = made ∨ answer = refused link) links answers := by
  induction h with
  | nil => exact .nil
  | making _ _ _ ih => exact .cons (.inl rfl) ih
  | refusing _ _ ih => exact .cons (.inr rfl) ih

theorem overriding (h : Takes links l answers l') : l'.overriding = l.overriding := by
  induction h with
  | nil => rfl
  | making _ _ _ ih => exact ih
  | refusing _ _ ih => exact ih

theorem acyclic (h : Takes links l answers l') (hl : l.Acyclic) : l'.Acyclic := by
  induction h with
  | nil => exact hl
  | making _ hc _ ih => exact ih (hl.insert_iff.2 hc)
  | refusing _ _ ih => exact ih hl

theorem all_made_or_refused (h : Takes links l answers l') :
    (∀ answer ∈ answers, answer = made) ∨ ∃ link ∈ links, refused link ∈ answers := by
  induction h with
  | nil => exact .inl (List.forall_mem_nil _)
  | making _ _ _ ih =>
    refine ih.imp (fun hall => List.forall_mem_cons.2 ⟨rfl, hall⟩) ?_
    rintro ⟨link, hl, ha⟩
    exact ⟨link, List.mem_cons_of_mem _ hl, List.mem_cons_of_mem _ ha⟩
  | refusing => exact .inr ⟨_, List.mem_cons_self, List.mem_cons_self⟩

theorem points_iff (h : Takes links l answers l') (hall : ∀ answer ∈ answers, answer = made)
    (a b : Name) : l'.Points a b ↔ l.Points a b ∨ (a, b) ∈ links := by
  induction h with
  | nil => rw [or_iff_left List.not_mem_nil]
  | @making aka name rest l _ _ hfree _ _ ih =>
    have hnew : (l.insert name aka).Points a b ↔ l.Points a b ∨ (a, b) = (aka, name) := by
      rw [points_insert, Prod.mk.injEq, or_comm]
      refine or_congr_left (and_iff_right_of_imp ?_)
      rintro hp rfl
      exact not_alias_iff.1 hfree b hp
    rw [ih fun answer ha => hall answer (List.mem_cons_of_mem _ ha), hnew, or_assoc, List.mem_cons]
  | refusing => cases hall _ List.mem_cons_self

theorem all_made {r : Name → Name → Prop} (h : Takes links l answers l')
    (hr : ∀ n, ¬TransGen r n n) (hl : ∀ a b, l.Points a b → r a b)
    (hlinks : ∀ link ∈ links, r link.1 link.2) : ∀ answer ∈ answers, answer = made := by
  induction h with
  | nil => exact List.forall_mem_nil _
  | @making aka name rest l _ _ _ _ _ ih =>
    have hfirst : r aka name := hlinks (aka, name) List.mem_cons_self
    refine List.forall_mem_cons.2 ⟨rfl, ih (fun a b hab => ?_) fun link hlink =>
      hlinks link (List.mem_cons_of_mem _ hlink)⟩
    obtain ⟨rfl, rfl⟩ | ⟨-, hab⟩ := points_insert.1 hab
    · exact hfirst
    · exact hl a b hab
  | @refusing aka name _ _ _ _ hc =>
    have hfirst : r aka name := hlinks (aka, name) List.mem_cons_self
    exact absurd (.head' hfirst (ReflTransGen.mono hl _ _ hc)) (hr aka)

end Takes

theorem Batch.takes_order (h : Batch links) (hp : order.Perm links) (overriding : Bool) :
    Takes order { overriding } (linkAll order { overriding }).1
      (linkAll order { overriding }).2 :=
  (h.perm hp).takes fun _ _ => NameMap.getElem?_empty _

/-- Links that run in no circle are all made, in whatever order they are asked for, and they are
then the same links. Of links that run in a circle at least one is refused in every order. A link
that is refused is so as it would close a circle. -/
theorem links_come_in_any_order (h : Batch links) (overriding : Bool) :
    (¬Circle links → ∃ l : Links, (∀ a b, l.Points a b ↔ (a, b) ∈ links) ∧
        ∀ order, order.Perm links →
          linkAll order { overriding } = (List.replicate order.length made, l)) ∧
      (Circle links → ∀ order, order.Perm links →
        ∃ link ∈ links, refused link ∈ (linkAll order { overriding }).1) ∧
      ∀ order, order.Perm links →
        List.Forall₂ (fun link answer => answer = made ∨ answer = refused link) order
          (linkAll order { overriding }).1 := by
  have hpoints : ∀ order, order.Perm links →
      (∀ answer ∈ (linkAll order { overriding }).1, answer = made) → ∀ a b,
        (linkAll order { overriding }).2.Points a b ↔ (a, b) ∈ links := by
    intro order hp hall a b
    rw [(h.takes_order hp overriding).points_iff hall, hp.mem_iff,
      or_iff_right (not_points_empty overriding a b)]
  refine ⟨fun hc => ?_, fun ⟨n, hn⟩ order hp => ?_,
    fun order hp => (h.takes_order hp overriding).outcomes⟩
  · have hall : ∀ order, order.Perm links →
        ∀ answer ∈ (linkAll order { overriding }).1, answer = made := fun order hp =>
      (h.takes_order hp overriding).all_made (r := fun a b => (a, b) ∈ links)
        (fun n hn => hc ⟨n, hn⟩) (fun a b hab => absurd hab (not_points_empty overriding a b))
        fun _ hlink => hp.mem_iff.1 hlink
    have hself := hpoints links (.refl _) (hall links (.refl _))
    refine ⟨(linkAll links { overriding }).2, hself, fun order hp => Prod.ext ?_ ?_⟩
    · have ht := h.takes_order hp overriding
      exact List.eq_replicate_iff.2 ⟨ht.outcomes.length_eq.symm, hall order hp⟩
    · refine ext_points ?_ fun a b => ?_
      · rw [(h.takes_order hp overriding).overriding,
          (h.takes_order (.refl _) overriding).overriding]
      · rw [hpoints order hp (hall order hp), hself]
  · have ht := h.takes_order hp overriding
    obtain hall | ⟨link, hl, hrefused⟩ := ht.all_made_or_refused
    · -- The links that were made run in no circle.
      refine absurd ?_ (ht.acyclic (Built.empty overriding).acyclic n)
      exact TransGen.mono (fun a b hab => (hpoints order hp hall a b).2 hab) n n hn
    · exact ⟨link, hp.mem_iff.1 hl, hrefused⟩

def chained : List (Name × Name) := [("b", "c"), ("c", "a")]

def circuit : List (Name × Name) := ("a", "b") :: chained

theorem links_come_in_any_order_circuit :
    (Batch circuit ∧ Circle circuit ∧ circuit.reverse.Perm circuit ∧
        ∃ link ∈ circuit, refused link ∈ (linkAll circuit.reverse { overriding := false }).1) ∧
      Batch chained ∧ ¬Circle chained ∧ chained.reverse.Perm chained ∧
        linkAll chained.reverse {} = ([made, made], (linkAll chained {}).2) := by
  have hb : Batch circuit := ⟨by decide, by decide, by decide⟩
  have hc : Circle circuit := by
    refine ⟨"a", .head (b := "b") ?_ (.head (b := "c") ?_ (.single ?_))⟩ <;> decide
  have hp : circuit.reverse.Perm circuit := List.reverse_perm _
  have hp' : chained.reverse.Perm chained := List.reverse_perm _
  obtain ⟨-, hrefused, -⟩ := links_come_in_any_order hb false
  obtain ⟨hmade, hrefused', -⟩ := links_come_in_any_order hb.tail true
  have hopen : ¬Circle chained := by
    intro hc
    obtain ⟨link, -, ha⟩ := hrefused' hc chained (.refl _)
    have hanswers : (linkAll chained {}).1 = [made, made] := by rfl
    rw [hanswers] at ha
    simp only [refused, made, List.mem_cons, Answer.settled.injEq, reduceCtorEq, List.not_mem_nil,
      or_self] at ha
  obtain ⟨l, -, hsame⟩ := hmade hopen
  refine ⟨⟨hb, hc, hp, hrefused hc _ hp⟩, hb.tail, hopen, hp', ?_⟩
  have hfirst : (linkAll chained {}).2 = l := by rw [hsame chained (.refl _)]
  rw [hsame _ hp', hfirst]
  rfl

end ObjectRegistry.Links
