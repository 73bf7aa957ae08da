import Mathlib.Data.List.Forall2

namespace Intension

theorem forall₂_append_left {α β : Type} {r : α → β → Prop} {as bs : List α} {vs : List β} :
    List.Forall₂ r (as ++ bs) vs ↔
      ∃ us ws, vs = us ++ ws ∧ List.Forall₂ r as us ∧ List.Forall₂ r bs ws := by
  constructor
  · intro each
    induction as generalizing vs with
    | nil => exact ⟨[], vs, rfl, .nil, each⟩
    | cons a as ih =>
      obtain ⟨v, rest, first, others, rfl⟩ := List.forall₂_cons_left_iff.mp each
      obtain ⟨us, ws, rfl, left, right⟩ := ih others
      exact ⟨v :: us, ws, rfl, .cons first left, right⟩
  · rintro ⟨us, ws, rfl, left, right⟩
    exact List.rel_append left right

theorem exists_of_forall₂ {α β : Type} {r : α → β → Prop} {as : List α} {vs : List β}
    (each : List.Forall₂ r as vs) {a : α} (member : a ∈ as) : ∃ v ∈ vs, r a v := by
  obtain ⟨before, after, rfl⟩ := List.append_of_mem member
  obtain ⟨us, ws, rfl, _, right⟩ := forall₂_append_left.mp each
  obtain ⟨v, rest, first, _, rfl⟩ := List.forall₂_cons_left_iff.mp right
  exact ⟨v, List.mem_append_cons_self, first⟩

theorem forall₂_unique {α β : Type} {r : α → β → Prop} {as : List α}
    (unique : ∀ a ∈ as, ∀ u v, r a u → r a v → u = v) {us vs : List β} (left : List.Forall₂ r as us)
    (right : List.Forall₂ r as vs) : us = vs := by
  induction left generalizing vs with
  | nil => exact (List.forall₂_nil_left_iff.mp right).symm
  | cons first _ ih =>
    obtain ⟨v, rest, head, others, rfl⟩ := List.forall₂_cons_left_iff.mp right
    rw [unique _ List.mem_cons_self _ _ first head,
      ih (fun a member => unique a (List.mem_cons_of_mem _ member)) others]

theorem forall₂_replaced {α β : Type} {r : α → β → Prop} {before after : List α} {a b : α}
    (same : ∀ v, r a v → r b v) {vs : List β} (each : List.Forall₂ r (before ++ a :: after) vs) :
    List.Forall₂ r (before ++ b :: after) vs := by
  obtain ⟨us, ws, rfl, left, right⟩ := forall₂_append_left.mp each
  obtain ⟨v, rest, first, others, rfl⟩ := List.forall₂_cons_left_iff.mp right
  exact forall₂_append_left.mpr ⟨us, _, rfl, left, .cons (same v first) others⟩

theorem forall₂_imp_of_mem {α β : Type} {r q : α → β → Prop} {as : List α} {vs : List β}
    (weaker : ∀ a ∈ as, ∀ v, r a v → q a v) (each : List.Forall₂ r as vs) : List.Forall₂ q as vs := by
  have both := (List.forall₂_and_left (l := as) (u := vs)).mpr ⟨weaker, each⟩
  exact both.imp fun a v holds => holds.1 v holds.2

theorem forall₂_iff_of_mem {α β : Type} {r q : α → β → Prop} {as : List α} {vs : List β}
    (same : ∀ a ∈ as, ∀ v, r a v ↔ q a v) : List.Forall₂ r as vs ↔ List.Forall₂ q as vs :=
  ⟨forall₂_imp_of_mem fun a member v => (same a member v).mp,
    forall₂_imp_of_mem fun a member v => (same a member v).mpr⟩

theorem forall₂_iff_of_forall₂ {α β : Type} {p q : α → β → Prop} {r : α → α → Prop} {s : β → β → Prop}
    {as bs : List α} {us vs : List β} (left : List.Forall₂ r as bs) (right : List.Forall₂ s us vs)
    (same : ∀ a ∈ as, ∀ b u v, r a b → s u v → (p a u ↔ q b v)) :
    List.Forall₂ p as us ↔ List.Forall₂ q bs vs := by
  induction left generalizing us vs with
  | nil => cases right <;> simp
  | cons first rest ih =>
    cases right with
    | nil => simp
    | cons head tail =>
      rw [List.forall₂_cons, List.forall₂_cons, same _ List.mem_cons_self _ _ _ first head,
        ih tail (fun a member => same a (List.mem_cons_of_mem _ member))]

theorem forall_mem_iff_of_forall₂ {α : Type} {r : α → α → Prop} {p : α → Prop}
    (same : ∀ {a b}, r a b → (p a ↔ p b)) {as bs : List α} (each : List.Forall₂ r as bs) :
    (∀ a ∈ as, p a) ↔ ∀ b ∈ bs, p b := by
  induction each with
  | nil => rfl
  | cons head rest ih => rw [List.forall_mem_cons, List.forall_mem_cons, same head, ih]

end Intension
