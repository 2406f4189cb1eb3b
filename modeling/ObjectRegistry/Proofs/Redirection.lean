import ObjectRegistry.Proofs.Chains

namespace ObjectRegistry.Links

open Relation

variable {l l' : Links} {aka name x y : Name}

namespace SameBut

theorem reaches_apart (hl : SameBut aka l l') (hx : ¬ReflTransGen l.Points x aka)
    (h : ReflTransGen l.Points x y) : ReflTransGen l'.Points x y := by
  induction h using ReflTransGen.head_induction_on with
  | refl => exact .refl
  | @head a b hab _ ih =>
    have ha : a ≠ aka := fun ha => hx (ha ▸ .refl)
    exact .head ((hl a b ha).2 hab) (ih fun hb => hx (.head hab hb))

theorem not_alias (hl : SameBut aka l l') (hx : x ≠ aka) (h : l.target[x]? = none) :
    l'.target[x]? = none := by
  rw [not_alias_iff] at h ⊢
  exact fun y hy => h y ((hl x y hx).1 hy)

theorem canonical_apart (hl : SameBut aka l l') (h : l.Acyclic) (h' : l'.Acyclic)
    (hx : ¬ReflTransGen l.Points x aka) : l'.canonical x = l.canonical x := by
  have hpath := h.reaches_canonical x
  refine h'.canonical_eq_iff.2 ⟨hl.reaches_apart hx hpath, ?_⟩
  refine hl.not_alias (fun he => hx ?_) (h.not_alias_canonical x)
  rwa [he] at hpath

theorem canonical_through (hl : SameBut aka l l') (h' : l'.Acyclic)
    (hx : ReflTransGen l.Points x aka) : l'.canonical x = l'.canonical aka :=
  h'.canonical_eq_of_reaches (hl.reaches hx)

end SameBut

theorem Acyclic.of_link_ok (h : l.Acyclic) (hs : name ≠ aka) (hok : l.link name aka = .ok l') :
    SameBut aka l l' ∧ l'.Points aka name ∧ ¬ReflTransGen l.Points name aka := by
  have hl := l.linking name aka
  rw [hok] at hl
  cases hl with
  | self _ he => exact absurd he hs
  | kept _ _ hp => exact ⟨sameBut_refl, hp, fun hpath => h aka (.head' hp hpath)⟩
  | added _ _ _ _ hc => exact ⟨sameBut_insert, points_insert.2 (.inl ⟨rfl, rfl⟩), hc⟩

theorem Acyclic.link_ok (h : l.Acyclic) (hok : l.link name aka = .ok l') : l'.Acyclic := by
  have h' := h.update_link name aka
  rwa [Op.update, hok] at h'

theorem erase_of_link_self_ok (hok : l.link aka aka = .ok l') : l' = l.erase aka := by
  have hl := l.linking aka aka
  rw [hok] at hl
  cases hl with
  | self => rfl
  | kept _ hs | added _ hs => exact absurd rfl hs

theorem erase_of_unlink_ok (hok : l.unlink aka = .ok l') : l' = l.erase aka := by
  rw [unlink] at hok
  split at hok
  · exact (Except.ok.inj hok).symm
  · cases hok

theorem not_alias_erase_self : (l.erase aka).target[aka]? = none := by
  rw [erase, NameMap.getElem?_erase, if_pos rfl]

/-- Let links be made and removed one by one. When an alias comes to stand for another name, what
led to the alias comes to stand for what that name stood for. When an alias is removed, or made to
stand for itself, what led to it comes to stand for it. All other names stand for what they did
before. -/
theorem updates_move_what_leads_to_the_alias (h : l.Built) :
    (∀ name aka l', name ≠ aka → l.link name aka = .ok l' → ∀ x,
      (ReflTransGen l.Points x aka → l'.canonical x = l.canonical name) ∧
        (¬ReflTransGen l.Points x aka → l'.canonical x = l.canonical x)) ∧
      ∀ aka l', l.unlink aka = .ok l' ∨ l.link aka aka = .ok l' → ∀ x,
        (ReflTransGen l.Points x aka → l'.canonical x = aka) ∧
          (¬ReflTransGen l.Points x aka → l'.canonical x = l.canonical x) := by
  have hac := h.acyclic
  constructor
  · intro name aka l' hs hok x
    obtain ⟨hsame, hp, hback⟩ := hac.of_link_ok hs hok
    have hac' := hac.link_ok hok
    refine ⟨fun hx => ?_, hsame.canonical_apart hac hac'⟩
    calc l'.canonical x = l'.canonical aka := hsame.canonical_through hac' hx
      _ = l'.canonical name := hac'.canonical_eq_of_reaches (.single hp)
      _ = l.canonical name := hsame.canonical_apart hac hac' hback
  · intro aka l' hok x
    obtain rfl : l' = l.erase aka := hok.elim erase_of_unlink_ok erase_of_link_self_ok
    have hac' := hac.erase aka
    refine ⟨fun hx => ?_, sameBut_erase.canonical_apart hac hac'⟩
    rw [sameBut_erase.canonical_through hac' hx, canonical_of_not_alias not_alias_erase_self]

theorem updates_move_what_leads_to_the_alias_threefold :
    threefold.Built ∧ ReflTransGen threefold.Points "c" "b" ∧
      ¬ReflTransGen threefold.Points "a" "b" ∧
      ("d" ≠ "b" ∧ threefold.link "d" "b" = .ok (threefold.insert "d" "b") ∧
        (threefold.insert "d" "b").canonical "c" = threefold.canonical "d" ∧
        (threefold.insert "d" "b").canonical "a" = threefold.canonical "a") ∧
      threefold.unlink "b" = .ok (threefold.erase "b") ∧
        (threefold.erase "b").canonical "c" = "b" ∧
        (threefold.erase "b").canonical "a" = threefold.canonical "a" := by
  have hb : threefold.Built := ((Built.empty true).link "a" "b").link "b" "c"
  have hc : ReflTransGen threefold.Points "c" "b" := .single (by unfold Points; decide)
  have ha : ¬ReflTransGen threefold.Points "a" "b" := fun hpath =>
    absurd (eq_of_reaches (by decide) hpath) (by decide)
  obtain ⟨hlink, hunlink⟩ := updates_move_what_leads_to_the_alias hb
  have hmoved : threefold.link "d" "b" = .ok (threefold.insert "d" "b") := by rfl
  have hremoved : threefold.unlink "b" = .ok (threefold.erase "b") := by rfl
  have hlinked := hlink "d" "b" _ (by decide) hmoved
  have hunlinked := hunlink "b" _ (.inl hremoved)
  exact ⟨hb, hc, ha, ⟨by decide, hmoved, (hlinked "c").1 hc, (hlinked "a").2 ha⟩, hremoved,
    (hunlinked "c").1 hc, (hunlinked "a").2 ha⟩

end ObjectRegistry.Links
