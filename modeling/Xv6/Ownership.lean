import Mathlib.Tactic

/-!
# Exact ownership of resources

Resources are handed out from an area and marked as used. `Exact` says that a resource of the area
is marked iff some place records it, that no resource is recorded in two places, and that only
resources of the area are recorded. The rules below are the two ways in which such a record can
change, and their repetition over a list.
-/
namespace Xv6.Ownership

section
variable {β σ : Type*} {owns owns' : β → σ → Prop} {used used' area : β → Prop}

structure Exact (owns : β → σ → Prop) (used area : β → Prop) : Prop where
  inside : ∀ {b x}, owns b x → area b
  unique : ∀ {b x y}, owns b x → owns b y → x = y
  used_iff : ∀ {b}, area b → (used b ↔ ∃ x, owns b x)

theorem Exact.used_of_owns (h : Exact owns used area) {b : β} {x : σ} (hb : owns b x) : used b :=
  (h.used_iff (h.inside hb)).mpr ⟨x,hb⟩

theorem Exact.congr (h : Exact owns used area) (ho : ∀ b x, owns' b x ↔ owns b x)
    (hu : ∀ b, area b → (used' b ↔ used b)) : Exact owns' used' area where
  inside hb := h.inside ((ho _ _).mp hb)
  unique hb hc := h.unique ((ho _ _).mp hb) ((ho _ _).mp hc)
  used_iff hb := by
    rw [hu _ hb,h.used_iff hb]
    exact exists_congr fun x => (ho _ x).symm

theorem Exact.claim (h : Exact owns used area) {b : β} {x : σ} (hb : area b) (hfree : ¬ used b)
    (ho : ∀ c y, owns' c y ↔ owns c y ∨ (c = b ∧ y = x))
    (hu : ∀ c, area c → (used' c ↔ used c ∨ c = b)) : Exact owns' used' area where
  inside := by
    intro c y hc
    rcases (ho c y).mp hc with hc | ⟨rfl,-⟩
    · exact h.inside hc
    · exact hb
  unique := by
    intro c y z hy hz
    rcases (ho c y).mp hy with hy | ⟨rfl,rfl⟩
    · rcases (ho c z).mp hz with hz | ⟨rfl,rfl⟩
      · exact h.unique hy hz
      · exact absurd (h.used_of_owns hy) hfree
    · rcases (ho c z).mp hz with hz | ⟨-,rfl⟩
      · exact absurd (h.used_of_owns hz) hfree
      · rfl
  used_iff := by
    intro c hc
    rw [hu c hc,h.used_iff hc]
    constructor
    · rintro (⟨y,hy⟩ | rfl)
      · exact ⟨y,(ho c y).mpr (.inl hy)⟩
      · exact ⟨x,(ho c x).mpr (.inr ⟨rfl,rfl⟩)⟩
    · rintro ⟨y,hy⟩
      rcases (ho c y).mp hy with hy | ⟨rfl,-⟩
      · exact .inl ⟨y,hy⟩
      · exact .inr rfl

end
end Xv6.Ownership
