import Intensional.Proofs.Context.Canonical

/-!
# Tables as sources

The rows of a table are a finite map under the bindings of the table's dimensions. Two contexts
find the same row exactly if they agree on these dimensions (`Context.beq_restrict`): a dimension
that one of them does not bind must not be bound by the other, and all other dimensions are
dropped from both. So a table means the last row that agrees with the context
(`Table.means_last_row`), and it has as many rows as there were keys, up to equality.
-/

namespace Intensional

/-! ## Putting one pair after the other -/

namespace Assoc

variable {κ ν : Type} [BEq κ] {m : Assoc κ ν}

def putAll (m : Assoc κ ν) (es : List (κ × ν)) : Assoc κ ν :=
  es.foldl (fun m e => m.put e.1 e.2) m

theorem length_put (m : Assoc κ ν) (k : κ) (v : ν) :
    (m.put k v).length = m.length + if m.contains k then 0 else 1 := by
  induction m with
  | nil => rfl
  | cons e m ih =>
    rw [put, contains, get?_cons]
    by_cases he : (e.1 == k) = true
    · rw [if_pos he, if_pos he]
      rfl
    · rw [if_neg he, if_neg he, List.length_cons, List.length_cons, ih, contains]
      omega

variable [EquivBEq κ]

theorem contains_put (m : Assoc κ ν) (k l : κ) (v : ν) :
    (m.put k v).contains l = (k == l || m.contains l) := by
  rw [contains, contains, get?_put]
  cases k == l <;> rfl

theorem contains_congr {k l : κ} (h : (k == l) = true) : m.contains k = m.contains l :=
  congrArg Option.isSome (get?_congr h m)

/-- Of several pairs with equal keys the last one counts. -/
theorem get?_putAll (m : Assoc κ ν) (es : List (κ × ν)) (k : κ) :
    (m.putAll es).get? k = ((es.reverse.find? fun e => e.1 == k).map (·.2)).or (m.get? k) := by
  induction es generalizing m with
  | nil => rfl
  | cons e es ih =>
    have hstep : m.putAll (e :: es) = (m.put e.1 e.2).putAll es := rfl
    rw [hstep, ih, get?_put, List.reverse_cons, List.find?_append, List.find?_singleton]
    cases es.reverse.find? fun e => e.1 == k with
    | some e' => rfl
    | none => cases e.1 == k <;> simp

/-- There is a new entry for every key that is not equal to an earlier one. -/
theorem length_putAll (m : Assoc κ ν) (es : List (κ × ν)) :
    (m.putAll es).length =
      m.length + ((es.map (·.1)).filter fun k => !m.contains k).eraseDups.length := by
  induction es generalizing m with
  | nil => rfl
  | cons e es ih =>
    have hstep : m.putAll (e :: es) = (m.put e.1 e.2).putAll es := rfl
    rw [hstep, ih, length_put, List.map_cons, List.filter_cons]
    cases hkey : m.contains e.1 with
    | true =>
      have hsame : ∀ k, (!(m.put e.1 e.2).contains k) = !m.contains k := fun k => by
        rw [contains_put]
        cases hek : e.1 == k with
        | false => rw [Bool.false_or]
        | true => rw [← contains_congr hek, hkey, Bool.true_or]
      simp only [hsame]
      rfl
    | false =>
      have hsame : ∀ k, (!(m.put e.1 e.2).contains k) = (!k == e.1 && !m.contains k) := fun k => by
        rw [contains_put, Bool.not_or, BEq.comm]
      simp only [hsame, Bool.not_false, if_true, Bool.false_eq_true, if_false]
      rw [List.eraseDups_cons, List.length_cons, List.filter_filter, Nat.add_assoc, Nat.add_comm 1]

end Assoc

/-! ## Agreement -/

namespace Context

/-- Whether two contexts bind the dimensions to equal values, or both do not bind them. -/
def agreeOn (dims : List Dim) (k l : Context) : Bool := dims.all fun d => k.get? d == l.get? d

theorem agreeOn_iff {dims : List Dim} {k l : Context} :
    k.agreeOn dims l = true ↔ ∀ d ∈ dims, (k.get? d == l.get? d) = true := List.all_eq_true

theorem beq_restrict (dims : List Dim) (k l : Context) :
    (k.restrict dims == l.restrict dims) = k.agreeOn dims l := by
  rw [Bool.eq_iff_iff, beq_iff_lookups, agreeOn_iff]
  refine forall_congr' fun d => ?_
  rw [get?_restrict, get?_restrict]
  by_cases hd : d ∈ dims
  · simp [hd]
  · simp [hd]

end Context

/-! ## Tables -/

namespace Table

theorem foldl_insert (t : Table) (rows : List (Context × Value)) :
    rows.foldl (fun t row => t.insert row.1 row.2) t =
      { t with rows := t.rows.putAll (rows.map fun row => (t.rowKey row.1, row.2)) } := by
  induction rows generalizing t with
  | nil => rfl
  | cons row rows ih => exact ih (t.insert row.1 row.2)

/-- Only the members of the list count, not their order. -/
theorem rowKey_ofDims (dims : List Dim) (k : Context) :
    (ofDims dims).rowKey k = k.restrict dims := by
  have hmem : ∀ d, (IndexSet.ofList dims).toList.contains d = dims.contains d := fun d => by
    rw [Bool.eq_iff_iff, List.contains_iff_mem, List.contains_iff_mem]
    exact IndexSet.mem_ofList
  refine Context.eq_of_lookups fun d => ?_
  rw [rowKey, ofDims, Context.get?_restrict, Context.get?_restrict, hmem]

theorem ofRows_eq (dims : List Dim) (rows : List (Context × Value)) :
    ofRows dims rows =
      ⟨.ofList dims, Assoc.putAll [] (rows.map fun row => (row.1.restrict dims, row.2))⟩ := by
  rw [ofRows, foldl_insert]
  simp only [rowKey_ofDims]
  rfl

theorem get_ofRows (dims : List Dim) (rows : List (Context × Value)) (k : Context) :
    (ofRows dims rows).get k =
      ((rows.reverse.find? fun row => row.1.agreeOn dims k).map (·.2)).getD (.special .access) := by
  have hkey : (ofRows dims rows).rowKey k = k.restrict dims := by
    rw [ofRows_eq]
    exact rowKey_ofDims dims k
  rw [get, hkey, ofRows_eq, Assoc.get?_putAll, Assoc.get?_nil, Option.or_none, ← List.map_reverse,
    List.find?_map, Option.map_map]
  simp only [Function.comp_def, Context.beq_restrict]

theorem get_congr {t : Table} {k l : Context} (h : k.agreeOn t.dims.toList l = true) :
    t.get k = t.get l := by
  have hkey : (t.rowKey k == t.rowKey l) = true := by
    rw [rowKey, rowKey, Context.beq_restrict, h]
  rw [get, get, Assoc.get?_congr hkey]

theorem size_ofRows (dims : List Dim) (rows : List (Context × Value)) :
    (ofRows dims rows).size = (rows.map fun row => row.1.restrict dims).eraseDups.length := by
  rw [size, ofRows_eq, Assoc.length_putAll, List.map_map]
  simp [Assoc.contains, Function.comp_def]

/-- The value is that of the last row that agrees with the context on the table's dimensions, so
that contexts which agree on them get the same value. There are as many rows as different keys. -/
theorem means_last_row (dims : List Dim) (rows : List (Context × Value)) :
    let t := ofRows dims rows
    (∀ k, t.get k = ((rows.reverse.find? fun row => row.1.agreeOn dims k).map (·.2)).getD
      (.special .access)) ∧
    (∀ d, d ∈ (Source.table t).dims ↔ d ∈ dims) ∧
    (∀ k l, (∀ d ∈ (Source.table t).dims, (k.get? d == l.get? d) = true) → t.get k = t.get l) ∧
    t.size = (rows.map fun row => row.1.restrict dims).eraseDups.length := by
  refine ⟨get_ofRows dims rows, fun d => ?_, fun k l h => ?_, size_ofRows dims rows⟩
  · rw [ofRows_eq]
    exact IndexSet.mem_ofList
  · exact get_congr (Context.agreeOn_iff.mpr h)

/-- The two zeros are one key, and the other dimensions are dropped. -/
example :
    let t := ofRows [8, 7, 8] [(.ofList [(7, .float ⟨0⟩)], .int 1),
      (.ofList [(7, .float ⟨0x8000000000000000⟩), (9, .bool true)], .int 2)]
    t.size = 1 ∧ t.get (.ofList [(7, .float ⟨0⟩), (6, .int 0)]) = .int 2 ∧
      t.get .empty = .special .access :=
  ⟨rfl, rfl, rfl⟩

end Table
end Intensional
