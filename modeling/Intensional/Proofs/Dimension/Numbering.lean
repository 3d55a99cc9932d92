import Intensional.Code.Compile
import Intensional.Proofs.Context.Agreement

/-!
# How tables hand out dimensions

Interning a value answers the dimension it already has, or the next number. A table is never
taken back, so every later table extends it (`DimTable.Within`). Two tables are alike if they
answer alike from here on, whatever they are asked (`DimTable.Alike`); their keys need only be
equal, not identical.

`DimTable.Adds` interns a list of values one by one. A numbering of values agrees with a table
if it gives every value of the table its dimension (`DimTable.NumberedBy`), and it foresees a
list of values if it agrees with the table that has them added (`DimTable.Foresees`).
-/

namespace Intensional

theorem Roster.find?_add {κ : Type} [BEq κ] [Digest κ] [EquivBEq κ] [LawfulDigest κ]
    (r : Roster κ) (key other : κ) (new : r.find? key = none) :
    (r.add key new).find? other = if key == other then some r.size else r.find? other :=
  DigitTree.get?_put key other r.size r.index

theorem Roster.find?_congr {κ : Type} [BEq κ] [Digest κ] [EquivBEq κ] (r : Roster κ) {k l : κ}
    (h : (k == l) = true) : r.find? k = r.find? l := by
  refine Option.ext fun i => ?_
  simp only [Roster.find?_eq_some_iff, BEq.congr_right h]

namespace DimTable

variable {T T' U U' : DimTable} {v w : Value} {d : Dim} {num : Value → Dim}
  {keys keys' : List Value}

/-! ## Looking up -/

/-- The dimension that a value denotes, if it has one. -/
def place? (T : DimTable) (v : Value) : Option Dim :=
  match v with
  | .dim d => some d
  | v => T.findValue? v

def Knows (T : DimTable) (v : Value) : Prop := (T.place? v).isSome = true

theorem place?_congr (T : DimTable) (h : (v == w) = true) : T.place? v = T.place? w := by
  have hfind : T.findValue? v = T.findValue? w := T.roster.find?_congr h
  cases v <;> cases w <;> simp_all [place?, Value.beq_def, Value.beq]

/-- Interning a key answers its dimension, or adds it, or fails on a full table. -/
theorem internKey_cases (key : DimKey) (T : DimTable) :
    (∃ d, T.roster.find? key = some d ∧ internKey key T = (.ok d, T)) ∨
    (∃ new : T.roster.find? key = none, T.isFull = false ∧
      internKey key T = (.ok T.size, { T with roster := T.roster.add key new })) ∨
    (T.roster.find? key = none ∧ T.isFull = true ∧
      internKey key T = (.error (.tableFull .dimension T.size), T)) := by
  unfold internKey
  split
  · rename_i d h
    exact .inl ⟨d, h, rfl⟩
  · rename_i h
    cases hfull : T.isFull with
    | false => exact .inr (.inl ⟨h, rfl, by simp⟩)
    | true => exact .inr (.inr ⟨h, rfl, by simp⟩)

theorem internValue_eq (v : Value) :
    internValue v = match v with
      | .dim d => fun T => (.ok d, T)
      | v => internKey (.value v) := by
  cases v <;> rfl

theorem internValue_error {e : Fault} (h : internValue v T = (.error e, T')) :
    ∃ size, e = .tableFull .dimension size := by
  have key : ∀ key : DimKey, internKey key T = (.error e, T') →
      ∃ size, e = .tableFull .dimension size := by
    intro key h
    rcases internKey_cases key T with ⟨_, _, h'⟩ | ⟨_, _, h'⟩ | ⟨_, _, h'⟩ <;>
      cases h'.symm.trans h
    exact ⟨T.size, rfl⟩
  rw [internValue_eq] at h
  cases v <;> first | exact key _ h | cases h

/-- A table without a limit has a dimension for every value. -/
theorem internValue_ok (h : T.limit = none) (v : Value) : ∃ d, (internValue v T).1 = .ok d := by
  have hroom : T.isFull = false := by rw [isFull, h, Option.any_none]
  have key : ∀ key : DimKey, ∃ d, (internKey key T).1 = .ok d := by
    intro key
    rcases internKey_cases key T with ⟨d, -, h'⟩ | ⟨new, -, h'⟩ | ⟨-, hfull, -⟩
    · exact ⟨d, congrArg Prod.fst h'⟩
    · exact ⟨T.size, congrArg Prod.fst h'⟩
    · cases hroom.symm.trans hfull
  rw [internValue_eq]
  cases v <;> first | exact key _ | exact ⟨_, rfl⟩

/-! ## Extension -/

/-- `T'` extends `T`: it knows all keys of `T` under the same dimensions, and has new dimensions
for new keys, up to the same limit. -/
structure Within (T T' : DimTable) : Prop where
  find? (key : DimKey) (d : Dim) : T.roster.find? key = some d → T'.roster.find? key = some d
  old (key : DimKey) (d : Dim) : d < T.size → T'.roster.find? key = some d →
    T.roster.find? key = some d
  size : T.size ≤ T'.size
  limit : T'.limit = T.limit

theorem Within.refl (T : DimTable) : T.Within T :=
  ⟨fun _ _ h => h, fun _ _ _ h => h, Nat.le_refl _, rfl⟩

theorem Within.trans (h : T.Within T') (h' : T'.Within U) : T.Within U where
  find? key d hd := h'.find? key d (h.find? key d hd)
  old key d hlt hd := h.old key d hlt (h'.old key d (Nat.lt_of_lt_of_le hlt h.size) hd)
  size := Nat.le_trans h.size h'.size
  limit := h'.limit.trans h.limit

theorem Within.place? (h : T.Within T') (hv : T.place? v = some d) : T'.place? v = some d := by
  cases v <;> first | exact hv | exact h.find? _ _ hv

theorem Within.knows (h : T.Within T') (hv : T.Knows v) : T'.Knows v := by
  obtain ⟨d, hd⟩ := Option.isSome_iff_exists.mp hv
  exact Option.isSome_iff_exists.mpr ⟨d, h.place? hd⟩

theorem within_internKey (key : DimKey) (T : DimTable) : T.Within (internKey key T).2 := by
  rcases internKey_cases key T with ⟨d, -, h⟩ | ⟨new, -, h⟩ | ⟨-, -, h⟩ <;> rw [h]
  · exact .refl T
  · refine ⟨fun other d hd => ?_, fun other d hlt hd => ?_, Nat.le_succ _, rfl⟩
    · have hne : (key == other) = false := by
        refine Bool.eq_false_iff.mpr fun heq => ?_
        rw [T.roster.find?_congr heq, hd] at new
        cases new
      simp only [Roster.find?_add, hne]
      exact hd
    · simp only [Roster.find?_add] at hd
      split at hd
      · cases hd
        exact absurd hlt (Nat.lt_irrefl _)
      · exact hd
  · exact .refl T

theorem within_internValue (v : Value) (T : DimTable) : T.Within (internValue v T).2 := by
  rw [internValue_eq]
  cases v <;> first | exact within_internKey _ T | exact .refl T

theorem place?_internValue (h : internValue v T = (.ok d, T')) : T'.place? v = some d := by
  have key : ∀ key : DimKey, internKey key T = (.ok d, T') → T'.roster.find? key = some d := by
    intro key h
    rcases internKey_cases key T with ⟨e, he, h'⟩ | ⟨new, -, h'⟩ | ⟨-, -, h'⟩
    · cases h'.symm.trans h
      exact he
    · cases h'.symm.trans h
      rw [Roster.find?_add, BEq.refl]
      rfl
    · cases h'.symm.trans h
  rw [internValue_eq] at h
  cases v <;> first | exact key _ h | (cases h; rfl)

theorem internValue_of_place? (h : T.place? v = some d) : internValue v T = (.ok d, T) := by
  have key : ∀ key : DimKey, T.roster.find? key = some d → internKey key T = (.ok d, T) := by
    intro key h
    rcases internKey_cases key T with ⟨e, he, h'⟩ | ⟨new, -, h'⟩ | ⟨he, -, h'⟩
    · cases he.symm.trans h
      exact h'
    · cases new.symm.trans h
    · cases he.symm.trans h
  rw [internValue_eq]
  cases v <;> first | exact key _ h | (cases h; rfl)

/-! ## Tables that answer alike -/

/-- The tables know equal keys, under the same dimensions, and hand out the same numbers. -/
structure Alike (T T' : DimTable) : Prop where
  size : T.size = T'.size
  limit : T.limit = T'.limit
  find? (key : DimKey) : T.roster.find? key = T'.roster.find? key

namespace Alike

theorem refl (T : DimTable) : T.Alike T := ⟨rfl, rfl, fun _ => rfl⟩

theorem symm (h : T.Alike T') : T'.Alike T := ⟨h.1.symm, h.2.symm, fun key => (h.3 key).symm⟩

theorem within (h : T.Alike T') : T.Within T' where
  find? key _ hd := (h.find? key).symm.trans hd
  old key _ _ hd := (h.find? key).trans hd
  size := Nat.le_of_eq h.size
  limit := h.limit.symm

theorem isFull (h : T.Alike T') : T.isFull = T'.isFull := by
  rw [DimTable.isFull, DimTable.isFull, h.size, h.limit]

theorem internKey (h : T.Alike T') {key key' : DimKey} (hkey : (key == key') = true) :
    (internKey key T).1 = (internKey key' T').1 ∧
      (internKey key T).2.Alike (internKey key' T').2 := by
  have hfind : T.roster.find? key = T'.roster.find? key' :=
    (h.find? key).trans (T'.roster.find?_congr hkey)
  rcases internKey_cases key T with ⟨d, hd, ht⟩ | ⟨new, hroom, ht⟩ | ⟨hd, hfull, ht⟩ <;>
    rcases internKey_cases key' T' with ⟨d', hd', ht'⟩ | ⟨new', hroom', ht'⟩ | ⟨hd', hfull', ht'⟩
  · rw [ht, ht']
    rw [hd, hd'] at hfind
    cases hfind
    exact ⟨rfl, h⟩
  · rw [hd, new'] at hfind; cases hfind
  · rw [hd, hd'] at hfind; cases hfind
  · rw [new, hd'] at hfind; cases hfind
  · rw [ht, ht']
    refine ⟨congrArg Except.ok h.size, ⟨congrArg (· + 1) h.size, h.limit, fun other => ?_⟩⟩
    simp only [Roster.find?_add, BEq.congr_left hkey, h.find? other]
    have hsize : T.roster.size = T'.roster.size := h.size
    rw [hsize]
  · rw [h.isFull, hfull'] at hroom; cases hroom
  · rw [hd, hd'] at hfind; cases hfind
  · rw [h.isFull, hroom'] at hfull; cases hfull
  · rw [ht, ht', h.size]
    exact ⟨rfl, h⟩

theorem internValue (h : T.Alike T') (hvw : (v == w) = true) :
    (internValue v T).1 = (internValue w T').1 ∧
      (internValue v T).2.Alike (internValue w T').2 := by
  have hkey : (DimKey.value v == DimKey.value w) = true := hvw
  rw [internValue_eq, internValue_eq]
  cases v <;> cases w <;> first
    | exact h.internKey hkey
    | (obtain rfl : _ = _ := by simpa [Value.beq_def, Value.beq] using hvw
       exact ⟨rfl, h⟩)
    | simp [Value.beq_def, Value.beq] at hvw

end Alike

/-! ## Numberings -/

/-- The numbering gives every value of the table its dimension. -/
def NumberedBy (T : DimTable) (num : Value → Dim) : Prop :=
  ∀ v d, T.place? v = some d → num v = d

theorem NumberedBy.of_within (h : T'.NumberedBy num) (hT : T.Within T') :
    T.NumberedBy num := fun v d hd => h v d (hT.place? hd)

/-- The dimensions of a table, and the first one for all values that it does not know. -/
def number (T : DimTable) (v : Value) : Dim := (T.place? v).getD 0

theorem numberedBy_number (T : DimTable) : T.NumberedBy T.number := fun v d hd => by
  rw [number, hd]
  rfl

theorem number_congr (T : DimTable) (h : (v == w) = true) : T.number v = T.number w := by
  rw [number, number, T.place?_congr h]

/-! ## Adding values one by one -/

/-- Interning the values in order succeeds, and leads to another table. -/
inductive Adds : DimTable → List Value → DimTable → Prop
  | nil {T : DimTable} : Adds T [] T
  | cons {T U V : DimTable} {v : Value} {d : Dim} {vs : List Value} :
    internValue v T = (.ok d, U) → Adds U vs V → Adds T (v :: vs) V

namespace Adds

theorem single (h : internValue v T = (.ok d, U)) : Adds T [v] U := .cons h .nil

theorem within (h : Adds T keys U) : T.Within U := by
  induction h with
  | nil => exact .refl _
  | @cons T U V v d vs hv _ ih =>
    have hT := within_internValue v T
    rw [hv] at hT
    exact hT.trans ih

theorem knows (h : Adds T keys U) : ∀ v ∈ keys, U.Knows v := by
  induction h with
  | nil => intro v hv; cases hv
  | @cons T U V v d vs hv hvs ih =>
    intro w hw
    rcases List.mem_cons.mp hw with rfl | hw
    · exact Option.isSome_iff_exists.mpr ⟨d, hvs.within.place? (place?_internValue hv)⟩
    · exact ih w hw

theorem of_knows (h : ∀ v ∈ keys, T.Knows v) : Adds T keys T := by
  induction keys with
  | nil => exact .nil
  | cons v vs ih =>
    obtain ⟨d, hd⟩ := Option.isSome_iff_exists.mp (h v (List.mem_cons_self ..))
    exact .cons (internValue_of_place? hd) (ih fun w hw => h w (List.mem_cons_of_mem _ hw))

theorem append {ks ls : List Value} (h : Adds T ks U) (h' : Adds U ls U') :
    Adds T (ks ++ ls) U' := by
  induction h with
  | nil => exact h'
  | cons hv _ ih => exact .cons hv (ih h')

theorem split : ∀ {ks ls : List Value} {T : DimTable}, Adds T (ks ++ ls) U →
    ∃ V, Adds T ks V ∧ Adds V ls U
  | [], _, T, h => ⟨T, .nil, h⟩
  | _ :: _, _, _, h => by
      cases h with
      | cons hv h =>
        obtain ⟨V, hks, hls⟩ := split h
        exact ⟨V, .cons hv hks, hls⟩

theorem unique (h : Adds T keys U) : ∀ {V : DimTable}, Adds T keys V → U = V := by
  induction h with
  | nil => intro V h'; cases h'; rfl
  | cons hv _ ih =>
    intro V h'
    cases h' with
    | cons hv' h' =>
      cases hv.symm.trans hv'
      exact ih h'

theorem alike (h : Adds T keys U) : ∀ {T' : DimTable} {keys' : List Value}, T.Alike T' →
    List.Forall₂ (fun v w => (v == w) = true) keys keys' → ∃ U', Adds T' keys' U' ∧ U.Alike U' := by
  induction h with
  | nil =>
    intro T' keys' hT hkeys
    cases hkeys
    exact ⟨T', .nil, hT⟩
  | @cons T U V v d vs hv _ ih =>
    intro T' keys' hT hkeys
    cases hkeys with
    | @cons _ w _ ws hvw hvs =>
      obtain ⟨hres, hU⟩ := hT.internValue hvw
      rw [hv] at hres hU
      obtain ⟨U', hU', hV⟩ := ih hU hvs
      have hw : internValue w T' = (.ok d, (internValue w T').2) := Prod.ext hres.symm rfl
      exact ⟨U', .cons hw hU', hV⟩

end Adds

/-! ## Keeping track of the values that are interned -/

section Tracks

variable {L : Likeness} {ks ls : List Value}

/-- From `T` to `T'` values have been interned that are like `keys`. -/
def Tracks (L : Likeness) (T : DimTable) (keys : List Value) (T' : DimTable) : Prop :=
  ∃ used, List.Forall₂ L.same used keys ∧ Adds T used T'

theorem Tracks.nil (T : DimTable) : Tracks L T [] T := ⟨[], .nil, .nil⟩

theorem Tracks.of_knows (h : ∀ v ∈ keys, T.Knows v) : Tracks L T keys T :=
  ⟨keys, List.forall₂_same.mpr fun v _ => L.refl v, .of_knows h⟩

theorem Tracks.append (h : Tracks L T ks U) (h' : Tracks L U ls U') :
    Tracks L T (ks ++ ls) U' := by
  obtain ⟨us, hus, hU⟩ := h
  obtain ⟨ws, hws, hU'⟩ := h'
  exact ⟨us ++ ws, List.rel_append hus hws, hU.append hU'⟩

theorem Tracks.knows (h : Tracks L T keys U) : ∀ v ∈ keys, U.Knows v := by
  obtain ⟨us, hus, hU⟩ := h
  intro v hv
  obtain ⟨w, hw, hwv⟩ : ∃ w ∈ us, L.same w v := by
    clear hU
    induction hus with
    | nil => cases hv
    | @cons a b as bs hab _ ih =>
      rcases List.mem_cons.mp hv with rfl | hv
      · exact ⟨a, List.mem_cons_self .., hab⟩
      · obtain ⟨w, hw, hwv⟩ := ih hv
        exact ⟨w, List.mem_cons_of_mem _ hw, hwv⟩
  rw [Knows, ← U.place?_congr (L.beq hwv)]
  exact hU.knows w hw

theorem Tracks.beq (h : Tracks L T keys U) :
    ∃ used, List.Forall₂ (fun v w => (v == w) = true) keys used ∧ Adds T used U := by
  obtain ⟨us, hus, hU⟩ := h
  exact ⟨us, hus.flip.imp fun _ _ h => BEq.symm (L.beq h), hU⟩

/-- The numbering agrees with the table that has the values added. -/
def Foresees (num : Value → Dim) (T : DimTable) (keys : List Value) : Prop :=
  ∃ U, Adds T keys U ∧ U.NumberedBy num

theorem Foresees.numberedBy (h : Foresees num T keys) : T.NumberedBy num := by
  obtain ⟨U, hU, hn⟩ := h
  exact hn.of_within hU.within

theorem Foresees.left (h : Foresees num T (ks ++ ls)) : Foresees num T ks := by
  obtain ⟨U, hU, hn⟩ := h
  obtain ⟨V, hV, hU⟩ := hU.split
  exact ⟨V, hV, hn.of_within hU.within⟩

/-- What is foreseen is still foreseen after some of it has been interned. -/
theorem Foresees.right (h : Foresees num T (ks ++ ls)) (ht : Tracks L T ks T') :
    Foresees num T' ls := by
  obtain ⟨U, hU, hn⟩ := h
  obtain ⟨V, hV, hU⟩ := hU.split
  obtain ⟨us, hus, hT'⟩ := ht.beq
  obtain ⟨W, hW, hVW⟩ := hV.alike (.refl T) hus
  rw [← hT'.unique hW] at hVW
  obtain ⟨U', hU', hUU'⟩ := hU.alike hVW (List.forall₂_same.mpr fun v _ => BEq.refl v)
  exact ⟨U', hU', hn.of_within hUU'.symm.within⟩

theorem Foresees.intern (h : Foresees num T [w]) (hvw : (v == w) = true) :
    ∃ U, internValue v T = (.ok (num w), U) := by
  obtain ⟨U, hU, hn⟩ := h
  cases hU with
  | @cons _ _ _ _ d _ hw hnil =>
    cases hnil
    have hres := ((Alike.refl T).internValue hvw).1
    rw [hw] at hres
    refine ⟨_, Prod.ext ?_ rfl⟩
    rw [hres, hn w d (place?_internValue hw)]

/-- What has been interned is foreseen by a numbering of the table that was reached. -/
theorem Tracks.foresees (h : Tracks L T keys U) (hn : U.NumberedBy num) :
    Foresees num T keys := by
  obtain ⟨us, hus, hU⟩ := h.beq
  have hus' : List.Forall₂ (fun v w => (v == w) = true) us keys := by
    exact hus.flip.imp fun _ _ h => BEq.symm h
  obtain ⟨V, hV, hUV⟩ := hU.alike (.refl T) hus'
  exact ⟨V, hV, hn.of_within hUV.symm.within⟩

theorem Foresees.alike (h : Foresees num T keys) (hT : T.Alike T')
    (hkeys : List.Forall₂ (fun v w => (v == w) = true) keys keys') : Foresees num T' keys' := by
  obtain ⟨U, hU, hn⟩ := h
  obtain ⟨V, hV, hUV⟩ := hU.alike hT hkeys
  exact ⟨V, hV, hn.of_within hUV.symm.within⟩

theorem Tracks.alike {M : Likeness} (h : Tracks L T keys U) (h' : Tracks M T' keys U')
    (hT : T.Alike T') : U.Alike U' := by
  obtain ⟨us, hus, hU⟩ := h.beq
  obtain ⟨ws, hws, hU'⟩ := h'.beq
  have hsame : List.Forall₂ (fun v w => (v == w) = true) us ws := by
    clear hU hU' h h'
    induction hus generalizing ws with
    | nil => cases hws; exact .nil
    | cons hab _ ih =>
      cases hws with
      | cons hac hws => exact .cons (BEq.trans (BEq.symm hab) hac) (ih _ hws)
  obtain ⟨V, hV, hUV⟩ := hU.alike hT hsame
  rwa [hV.unique hU'] at hUV

end Tracks

/-! ## Compiling -/

/-- What the action does is determined by what the table answers, and it only adds to it. -/
structure Steady {α : Type} (m : Action DimTable α) : Prop where
  within (T : DimTable) : T.Within (m T).2
  alike {T T' : DimTable} : T.Alike T' → (m T).1 = (m T').1 ∧ (m T).2.Alike (m T').2

namespace Steady

variable {α β : Type}

theorem result (r : Except Fault α) : Steady (Action.ofExcept r) :=
  ⟨fun T => .refl T, fun h => ⟨rfl, h⟩⟩

theorem pure (a : α) : Steady (Pure.pure a) := result (.ok a)

theorem fault (e : Fault) : Steady (Action.fault e : Action DimTable α) := result (.error e)

theorem bind {m : Action DimTable α} {f : α → Action DimTable β} (hm : Steady m)
    (hf : ∀ a, Steady (f a)) : Steady (m >>= f) := by
  refine ⟨fun T => ?_, fun {T T'} h => ?_⟩
  · have hT := hm.within T
    rw [Action.bind_apply]
    rcases hres : m T with ⟨_ | a, U⟩
    · rwa [hres] at hT
    · rw [hres] at hT
      exact hT.trans ((hf a).within U)
  · obtain ⟨hres, halike⟩ := hm.alike h
    rw [Action.bind_apply, Action.bind_apply]
    generalize m T = ran at hres halike ⊢
    generalize m T' = ran' at hres halike ⊢
    obtain ⟨r, U⟩ := ran
    obtain ⟨r', U'⟩ := ran'
    obtain rfl : r = r' := hres
    cases r with
    | error e => exact ⟨rfl, halike⟩
    | ok a => exact (hf a).alike halike

theorem internKey (key : DimKey) : Steady (DimTable.internKey key) :=
  ⟨within_internKey key, fun h => h.internKey (BEq.refl key)⟩

theorem internValue (v : Value) : Steady (DimTable.internValue v) :=
  ⟨within_internValue v, fun h => h.internValue (BEq.refl v)⟩

theorem namedDim (name : String) : Steady (Expr.namedDim name) := by
  unfold Expr.namedDim
  split
  · exact fault _
  · exact internKey _

theorem read {e : Expr} (h : Steady e.compile) : Steady (Expr.read e).compile := by
  cases e with
  | dimension name =>
    simp only [Expr.compile]
    exact (namedDim name).bind fun _ => pure _
  | const v =>
    simp only [Expr.compile]
    split
    · exact fault _
    · exact (internValue v).bind fun _ => pure _
  | _ =>
    rw [Expr.compile_read]
    · exact h.bind fun _ => pure _
    · rintro _ ⟨⟩
    · rintro _ ⟨⟩

mutual

theorem compile : ∀ e : Expr, Steady e.compile
  | .const v => by
      simp only [Expr.compile]
      exact pure _
  | .dimension name => by
      simp only [Expr.compile]
      exact (namedDim name).bind fun _ => pure _
  | .read e => read (compile e)
  | .ident n => by
      simp only [Expr.compile]
      exact pure _
  | .apply op args => by
      simp only [Expr.compile]
      exact (compileAll args).bind fun _ => pure _
  | .cond test yes no => by
      simp only [Expr.compile]
      exact (compile test).bind fun _ => (compile yes).bind fun _ => (compile no).bind fun _ =>
        pure _
  | .under body bindings => by
      simp only [Expr.compile]
      exact (compileBindings bindings).bind fun _ => (compile body).bind fun _ => pure _

theorem compileAll : ∀ es : List Expr, Steady (Expr.compileAll es)
  | [] => by
      simp only [Expr.compileAll]
      exact pure _
  | e :: es => by
      simp only [Expr.compileAll]
      exact (compile e).bind fun _ => (compileAll es).bind fun _ => pure _

theorem compileBindings : ∀ bs : List (Expr × Expr), Steady (Expr.compileBindings bs)
  | [] => by
      simp only [Expr.compileBindings]
      exact pure _
  | (key, value) :: rest => by
      simp only [Expr.compileBindings]
      exact (compile key).bind fun _ => (compile value).bind fun _ =>
        (compileBindings rest).bind fun _ => pure _

end

end Steady

end DimTable

end Intensional
