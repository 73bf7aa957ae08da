import Mathlib.Data.List.Basic
import Mathlib.Data.List.Pairwise
import Intension.Distinct

namespace Intension

variable {α β : Type} [DecidableEq β]

theorem mem_of_mem_distinctBy {key : α → β} {a : α} {as : List α} (member : a ∈ distinctBy key as) :
    a ∈ as := by
  induction as with
  | nil => contradiction
  | cons b as ih =>
    rcases List.mem_cons.mp member with rfl | member
    · exact List.mem_cons_self
    · exact List.mem_cons_of_mem _ (ih (List.mem_filter.mp member).1)

theorem exists_mem_distinctBy (key : α → β) {a : α} {as : List α} (member : a ∈ as) :
    ∃ b ∈ distinctBy key as, key b = key a := by
  induction as with
  | nil => contradiction
  | cons b as ih =>
    by_cases same : key b = key a
    · exact ⟨b, List.mem_cons_self, same⟩
    · rcases List.mem_cons.mp member with rfl | member
      · exact absurd rfl same
      · obtain ⟨c, found, equal⟩ := ih member
        have differs : key c ≠ key b := fun other => same (other.symm.trans equal)
        exact ⟨c, List.mem_cons_of_mem _ (List.mem_filter.mpr ⟨found, by simpa using differs⟩), equal⟩

theorem pairwise_distinctBy (key : α → β) (as : List α) :
    (distinctBy key as).Pairwise (fun a b => key a ≠ key b) := by
  induction as with
  | nil => exact .nil
  | cons a as ih =>
    refine .cons ?_ (ih.filter _)
    intro b member
    have differs : key b ≠ key a := by simpa using (List.mem_filter.mp member).2
    exact differs.symm

theorem eq_of_mem_distinctBy {key : α → β} {a b : α} {as : List α} (first : a ∈ distinctBy key as)
    (second : b ∈ distinctBy key as) (same : key a = key b) : a = b := by
  have symmetric : Std.Symm (fun a b => key a ≠ key b) := ⟨fun _ _ keys => keys.symm⟩
  by_contra differ
  exact (pairwise_distinctBy key as).forall first second differ same

theorem nodup_distinctBy (key : α → β) (as : List α) : (distinctBy key as).Nodup :=
  (pairwise_distinctBy key as).imp (fun differs same => differs (congrArg key same))

theorem distinctBy_map (key : α → β) (as : List α) :
    distinctBy id (as.map key) = (distinctBy key as).map key := by
  induction as with
  | nil => rfl
  | cons a as ih =>
    rw [List.map_cons, distinctBy, distinctBy, List.map_cons, ih, List.filter_map]
    rfl

theorem mem_distinctBy_id {a : β} {as : List β} : a ∈ distinctBy id as ↔ a ∈ as := by
  constructor
  · exact mem_of_mem_distinctBy
  · intro member
    obtain ⟨b, found, same⟩ := exists_mem_distinctBy id member
    rwa [← (show b = a from same)]

theorem distinctBy_filter (p : β → Bool) (as : List β) :
    distinctBy id (as.filter p) = (distinctBy id as).filter p := by
  induction as with
  | nil => rfl
  | cons a as ih =>
    by_cases holds : p a = true
    · rw [List.filter_cons_of_pos holds, distinctBy, distinctBy, ih, List.filter_cons_of_pos holds,
        List.filter_comm]
    · have differs (b : β) (other : p b = true) : b ≠ a := by
        intro same
        rw [same] at other
        exact holds other
      rw [List.filter_cons_of_neg holds, distinctBy, ih, List.filter_cons_of_neg holds, List.filter_filter]
      apply List.filter_congr
      intro b _
      cases other : p b with
      | false => rfl
      | true => simp [differs b other]

theorem unmet_of_mem {known : List β} {a : β} (member : a ∈ known) (as : List β) :
    (distinctBy id (a :: as)).filter (· ∉ known) = (distinctBy id as).filter (· ∉ known) := by
  have met : ¬ decide (a ∉ known) = true := by simpa using member
  rw [distinctBy, List.filter_cons, if_neg met, List.filter_filter]
  apply List.filter_congr
  intro b _
  have differs : b ∉ known → b ≠ a := fun outside same => outside (same ▸ member)
  rw [← Bool.decide_and, decide_eq_decide]
  exact ⟨And.left, fun outside => ⟨outside, differs outside⟩⟩

theorem unmet_of_notMem {known : List β} {a : β} (new : a ∉ known) (as : List β) :
    (distinctBy id (a :: as)).filter (· ∉ known) =
      a :: (distinctBy id as).filter (· ∉ known ++ [a]) := by
  rw [distinctBy, List.filter_cons, if_pos (decide_eq_true new), List.filter_filter]
  congr 1
  apply List.filter_congr
  intro b _
  rw [← Bool.decide_and, decide_eq_decide, List.mem_append, List.mem_singleton, not_or]
  rfl

end Intension
