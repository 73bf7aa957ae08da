import Intension.Extension.Values
import Intension.Proofs.Extension.Side
import Intension.Proofs.Machine.Truth

namespace Intension.Program

theorem mem_insertValue {v w : Word} {values : List Word} :
    v ∈ insertValue w values ↔ v = w ∨ v ∈ values := by
  induction values with
  | nil => rw [insertValue, List.mem_singleton, List.mem_nil_iff, or_false]
  | cons u values ih =>
    rw [insertValue]
    split
    · exact List.mem_cons
    · split
      · rename_i same
        subst same
        rw [List.mem_cons, or_self_left]
      · rw [List.mem_cons, ih, List.mem_cons, or_left_comm]

theorem pairwise_insertValue (w : Word) {values : List Word} (ascending : values.Pairwise (· < ·)) :
    (insertValue w values).Pairwise (· < ·) := by
  induction values with
  | nil => exact List.pairwise_singleton _ _
  | cons u values ih =>
    obtain ⟨least, rest⟩ := List.pairwise_cons.mp ascending
    rw [insertValue]
    split
    · rename_i below
      refine List.pairwise_cons.mpr ⟨?_, ascending⟩
      intro v member
      rcases List.mem_cons.mp member with rfl | member
      · exact below
      · exact Int64.lt_trans below (least v member)
    · rename_i above
      split
      · exact ascending
      · rename_i differs
        refine List.pairwise_cons.mpr ⟨?_, ih rest⟩
        intro v member
        rcases mem_insertValue.mp member with rfl | member
        · exact Int64.lt_of_le_of_ne (Int64.not_lt.mp above) (Ne.symm differs)
        · exact least v member

/-- A visit that adds every tuple whose value is not refused. -/
def checkedVisit {σ : Type} (refused? : Word → Option ExtensionError) (add : σ → Tuple → Word → σ) :
    Visit σ := fun state tuple v =>
  match refused? v with
  | some e => .error e
  | none => .ok (.yield (add state tuple v))

/-- The error that such a visit has at a tuple. -/
def refusal? (p : Program) (refused? : Word → Option ExtensionError) (tuple : Tuple) :
    Option ExtensionError :=
  match p.evaluate tuple with
  | .ok v => refused? v
  | .error fault => some (.evaluation fault)

/-- The tuples that have a value, with it. -/
def valued (p : Program) (tuples : List Tuple) : List (Tuple × Word) :=
  tuples.filterMap fun tuple => (p.evaluate tuple).toOption.map (tuple, ·)

variable {p : Program} {domains : List (List Word)} {σ : Type}

theorem valued_cons {tuple : Tuple} {v : Word} (value : p.evaluate tuple = .ok v)
    (tuples : List Tuple) : p.valued (tuple :: tuples) = (tuple, v) :: p.valued tuples := by
  rw [valued, List.filterMap_cons, value]
  rfl

/-- Such a visit stops at the first tuple that has a fault or a refused value, with its error. -/
theorem visitProduct_checked (count : domains.length = p.arity)
    (refused? : Word → Option ExtensionError) (add : σ → Tuple → Word → σ) (state : σ) :
    p.visitProduct domains (checkedVisit refused? add) state =
      match (product domains).findSome? (p.refusal? refused?) with
      | some e => .error e
      | none => .ok ((p.valued (product domains)).foldl (fun state row => add state row.1 row.2) state) := by
  rw [visitProduct_eq_forIn p count]
  generalize product domains = tuples
  induction tuples generalizing state with
  | nil => rfl
  | cons tuple tuples ih =>
    rw [List.forIn_cons, List.findSome?_cons, refusal?, valueOf]
    cases value : p.evaluate tuple with
    | error fault => rfl
    | ok v =>
      dsimp only [Except.mapError]
      rw [ok_bind, checkedVisit, valued_cons value]
      cases refused? v with
      | some e => rfl
      | none => exact ih (add state tuple v)

/-- The error of a value that is wanted and does not fit the width. -/
def unfit? (wanted? : Option (List Word)) (width : Width) (v : Word) : Option ExtensionError :=
  if wanted?.all (·.contains v) && !width.contains v then some (.range v width) else none

/-- The row of a tuple whose value is wanted. -/
def row? (p : Program) (wanted? : Option (List Word)) (tuple : Tuple) : Option Tuple :=
  match p.evaluate tuple with
  | .ok v => if wanted?.all (·.contains v) then some (tuple ++ [v]) else none
  | .error _ => none

theorem filterMap_row? (wanted? : Option (List Word)) (tuples : List Tuple) :
    tuples.filterMap (p.row? wanted?) =
      ((p.valued tuples).filter fun row => wanted?.all (·.contains row.2)).map
        fun row => row.1 ++ [row.2] := by
  rw [valued, List.filter_filterMap, List.map_filterMap]
  refine List.filterMap_congr ?_
  intro tuple _
  rw [row?]
  cases p.evaluate tuple with
  | error fault => rfl
  | ok v =>
    dsimp only [Except.toOption, Option.map_some]
    rw [Option.filter_some]
    split <;> rfl

theorem graph_eq (count : domains.length = p.arity) (wanted? : Option (List Word)) (width : Width) :
    p.graph domains wanted? width =
      match (product domains).findSome? (p.refusal? (unfit? wanted? width)) with
      | some e => .error e
      | none => .ok ((product domains).filterMap (p.row? wanted?)) := by
  have checked : (fun (rows : Array Tuple) tuple v =>
      if wanted?.all (·.contains v) then
        if width.contains v then Except.ok (ForInStep.yield (rows.push (tuple ++ [v])))
        else .error (.range v width)
      else .ok (.yield rows)) = checkedVisit (unfit? wanted? width) (fun rows tuple v =>
        if wanted?.all (·.contains v) then rows.push (tuple ++ [v]) else rows) := by
    funext rows tuple v
    rw [checkedVisit, unfit?]
    cases wanted?.all (·.contains v) <;> cases width.contains v <;> rfl
  rw [graph, checked, visitProduct_checked count]
  cases (product domains).findSome? (p.refusal? (unfit? wanted? width)) with
  | some e => rfl
  | none =>
    refine congrArg Except.ok ?_
    rw [filterMap_row?, ← List.foldl_filter (p := fun row : Tuple × Word => wanted?.all (·.contains row.2))
      (f := fun (rows : Array Tuple) row => rows.push (row.1 ++ [row.2])), List.foldl_push_eq_append,
      List.append_toArray, List.nil_append]

theorem pairwise_foldl_insertValue (rows : List (Tuple × Word)) {values : List Word}
    (ascending : values.Pairwise (· < ·)) :
    (rows.foldl (fun values row => insertValue row.2 values) values).Pairwise (· < ·) := by
  induction rows generalizing values with
  | nil => exact ascending
  | cons row rows ih => exact ih (pairwise_insertValue row.2 ascending)

theorem mem_foldl_insertValue {v : Word} (rows : List (Tuple × Word)) (values : List Word) :
    v ∈ rows.foldl (fun values row => insertValue row.2 values) values ↔
      (∃ row ∈ rows, row.2 = v) ∨ v ∈ values := by
  induction rows generalizing values with
  | nil => simp
  | cons row rows ih =>
    rw [List.foldl_cons, ih, mem_insertValue, List.exists_mem_cons_iff, or_left_comm, or_assoc,
      eq_comm (a := v)]

theorem image_eq (count : domains.length = p.arity) (integer : p.result = .integer) (width : Width) :
    p.image domains width =
      match (product domains).findSome? (p.refusal? (unfit? none width)) with
      | some e => .error e
      | none => .ok ((p.valued (product domains)).foldl (fun values row => insertValue row.2 values) [])
      := by
  have checked : (fun (values : List Word) (_ : Tuple) v =>
      if width.contains v then Except.ok (ForInStep.yield (insertValue v values))
      else .error (.range v width)) =
        checkedVisit (unfit? none width) (fun values _ v => insertValue v values) := by
    funext values tuple v
    rw [checkedVisit, unfit?]
    cases width.contains v <;> rfl
  rw [image, if_neg (by rw [integer]; decide), checked, visitProduct_checked count]

/-- A graph has a row for every tuple whose value is wanted, in the order of the product. The image of an
    integer program is what the rows end with when every value is wanted, ascending and without repeats.
    Both fail at the first tuple that has a fault or a wanted value outside the width. -/
theorem graph_image_views (count : domains.length = p.arity) (width : Width) :
    (∀ wanted?,
      ((product domains).findSome? (p.refusal? (unfit? wanted? width)) = none →
        p.graph domains wanted? width = .ok ((product domains).filterMap (p.row? wanted?))) ∧
      ∀ e, (product domains).findSome? (p.refusal? (unfit? wanted? width)) = some e →
        p.graph domains wanted? width = .error e) ∧
    (p.result = .integer →
      (∀ e, p.image domains width = .error e ↔ p.graph domains none width = .error e) ∧
      ∀ rows, p.graph domains none width = .ok rows →
        ∃ values, p.image domains width = .ok values ∧ values.Pairwise (· < ·) ∧
          ∀ v, v ∈ values ↔ ∃ row ∈ rows, row.getLast? = some v) ∧
    (p.result = .boolean →
      p.image domains width = .ok [0, 1] ∧
      (p.Assembled → ∀ tuple ∈ product domains, ∀ v, p.evaluate tuple = .ok v →
        v ∈ [(0 : Word), 1])) := by
  refine ⟨?_, ?_, ?_⟩
  · intro wanted?
    rw [graph_eq count]
    refine ⟨?_, ?_⟩
    · intro fits
      rw [fits]
    · intro e refused
      rw [refused]
  · intro integer
    rw [graph_eq count, image_eq count integer, filterMap_row?]
    cases (product domains).findSome? (p.refusal? (unfit? none width)) with
    | some e =>
      refine ⟨?_, fun rows same => nomatch same⟩
      intro other
      constructor <;> rintro ⟨⟩ <;> rfl
    | none =>
      refine ⟨?_, ?_⟩
      · intro e
        constructor <;> rintro ⟨⟩
      · intro rows same
        cases same
        refine ⟨_, rfl, pairwise_foldl_insertValue _ .nil, ?_⟩
        intro v
        rw [mem_foldl_insertValue]
        simp
  · intro boolean
    refine ⟨if_pos boolean, ?_⟩
    intro assembled tuple _ v value
    rcases assembled.truth boolean .empty value with rfl | rfl
    · exact List.mem_cons_self
    · exact List.mem_cons_of_mem _ List.mem_cons_self

/-- The quotient of three hundred by the only value. -/
def hundreds : Program :=
  ⟨[⟨.push 300, none⟩, ⟨.load 0, none⟩, ⟨.apply .div 2, none⟩], 1, .integer, []⟩

/-- Three hundred does not fit eight bits. That is no error where it is not wanted, and it comes before
    the fault of a later tuple where it is. -/
theorem graph_image_views_hundreds :
    ofTokens [.int 300, .slot 0, .op .div 2] true = .ok hundreds ∧
      (hundreds.graph [[3, 1, 3]] (some [-100, 100]) .bits8 = .ok [[3, 100], [3, 100]] ∧
        hundreds.graph [[3, 1, 0]] none .bits8 = .error (.range 300 .bits8)) ∧
      (∃ values, hundreds.image [[3, -3, 3]] .bits8 = .ok values ∧ values.Pairwise (· < ·) ∧
        ∀ v, v ∈ values ↔ ∃ row ∈ [[3, 100], [-3, -100], [3, 100]], row.getLast? = some v) ∧
      quotientBelow.image [[2, 0], [3]] .bits8 = .ok [0, 1] ∧
      ∀ tuple ∈ product [[2, 0], [3]], ∀ v, quotientBelow.evaluate tuple = .ok v →
        v ∈ [(0 : Word), 1] := by
  have boolean := (graph_image_views (show [[2, 0], [3]].length = quotientBelow.arity from rfl) .bits8).2.2 rfl
  have assembled : quotientBelow.Assembled :=
    .stream (show ofTokens [.int 7, .slot 0, .op .div 2, .slot 1, .op .lt 2] true = .ok _ from rfl)
  have rows : hundreds.graph [[3, -3, 3]] none .bits8 = .ok [[3, 100], [-3, -100], [3, 100]] :=
    ((graph_image_views rfl .bits8).1 none).1 rfl
  refine ⟨rfl, ⟨?_, ?_⟩, ?_, boolean.1, boolean.2 assembled⟩
  · exact ((graph_image_views rfl .bits8).1 (some [-100, 100])).1 rfl
  · exact ((graph_image_views rfl .bits8).1 none).2 (.range 300 .bits8) rfl
  · exact ((graph_image_views rfl .bits8).2.1 rfl).2 [[3, 100], [-3, -100], [3, 100]] rows

end Intension.Program
