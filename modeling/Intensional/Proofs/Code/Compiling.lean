import Intensional.Proofs.Dimension.Interning

/-!
# Which expressions compile

Compiling visits the parts of a tree in a fixed order (`Expr.parts`). It sends requests to the
table of dimensions, and it is refused at the first part that has a flaw (`Expr.flaw?`), unless
the table runs full before. Once it has succeeded, all its requests have answers that later tables
repeat, and so the code is the same from then on (`Expr.Visits`).
-/

namespace Intensional

namespace DimTable

variable {T T' U : DimTable} {d : Dim}

theorem within_fresh (T : DimTable) : T.Within (fresh T).2 := by
  rcases fresh_cases T with ⟨-, h⟩ | ⟨-, h⟩ <;> rw [h]
  · exact ⟨fun _ _ hd => hd, fun _ _ _ hd => hd, Nat.le_succ _, rfl⟩
  · exact .refl T

theorem within_after (T : DimTable) (rs : List Request) : T.Within (interner.after T rs) := by
  induction rs generalizing T with
  | nil => exact .refl T
  | cons r rs ih =>
    have hask : T.Within (r.ask T).2 := by
      cases r with
      | name n => exact within_internKey _ T
      | value v => exact within_internValue v T
      | own => exact within_fresh T
    exact hask.trans (ih _)

/-- A request for a name or a value that has been answered gets the same answer from every later
table, which it does not change. -/
theorem Request.again {r : Request} (hr : r ≠ .own) (h : r.ask T = (.ok d, T'))
    (hU : T'.Within U) : r.ask U = (.ok d, U) := by
  cases hwants : interner.wants r with
  | inl i =>
    have hasked : r.ask T = (.ok i, T) := keeps_roster.direct T hwants
    cases hasked.symm.trans h
    exact keeps_roster.direct U hwants
  | inr key =>
    have hshared : shared key = true := by
      cases r with
      | name n => cases hwants; rfl
      | value v => cases v <;> cases hwants <;> rfl
      | own => exact absurd rfl hr
    have hstep : interner.Step (·.roster) T key (r.ask T) := keeps_roster.step T hwants
    rw [h] at hstep
    exact keeps_roster.ask_of_find? hwants hshared (hU.find? key d (hstep.holds.find? hshared))

theorem Request.ask_error {r : Request} {f : Fault} (h : r.ask T = (.error f, T')) :
    T'.isFull = true ∧ f = .tableFull .dimension T'.size := by
  obtain ⟨rfl, hf⟩ := keeps_roster.unchanged h
  obtain ⟨-, -, -, hfull⟩ := (keeps_roster.refused_iff T' r).mp ⟨f, congrArg Prod.fst h⟩
  exact ⟨full_iff.mp hfull, hf⟩

end DimTable

namespace Expr

open DimTable (interner Request)

variable {α β : Type} {fs gs : List String} {T T' U : DimTable} {f : Fault}

/-! ## Parts and flaws -/

mutual

/-- All parts of a tree, in the order in which they are visited: itself comes last. -/
def parts : Expr → List Expr
  | .const v => [.const v]
  | .dimension name => [.dimension name]
  | .read e => parts e ++ [.read e]
  | .ident n => [.ident n]
  | .apply op args => partsAll args ++ [.apply op args]
  | .cond test yes no => parts test ++ parts yes ++ parts no ++ [.cond test yes no]
  | .under body bindings => partsBindings bindings ++ parts body ++ [.under body bindings]

def partsAll : List Expr → List Expr
  | [] => []
  | e :: es => parts e ++ partsAll es

def partsBindings : List (Expr × Expr) → List Expr
  | [] => []
  | (key, value) :: rest => parts key ++ parts value ++ partsBindings rest

end

/-- What is said of a part that is refused. -/
def flaw? : Expr → Option String
  | .dimension name => if name = "" then some "" else none
  | .read (.const v) => if v.isSpecial then some v.text else none
  | _ => none

def flaws (es : List Expr) : List String := es.filterMap flaw?

theorem flaws_append (es es' : List Expr) : flaws (es ++ es') = flaws es ++ flaws es' :=
  List.filterMap_append

theorem flaws_singleton (e : Expr) : flaws [e] = e.flaw?.toList := by
  rw [flaws, List.filterMap_cons, List.filterMap_nil]
  cases e.flaw? <;> rfl

theorem flaws_concat {e : Expr} (h : e.flaw? = none) (es : List Expr) :
    flaws (es ++ [e]) = flaws es := by
  rw [flaws_append, flaws_singleton, h, Option.toList_none, List.append_nil]

/-- A dimension without a name, or reading at a special value. -/
def Malformed (e : Expr) : Prop :=
  e = .dimension "" ∨ ∃ v, v.isSpecial = true ∧ e = .read (.const v)

theorem flaw?_isSome_iff (e : Expr) : e.flaw?.isSome = true ↔ e.Malformed := by
  unfold flaw? Malformed
  split
  · simp
  · simp
  · rename_i hdimension hread
    refine iff_of_false nofun ?_
    rintro (rfl | ⟨v, -, rfl⟩)
    · exact hdimension "" rfl
    · exact hread v rfl

/-! ## Visits -/

/-- An action that interns the keys of some parts, and is refused at the first flaw. -/
structure Visits (flaws : List String) (m : Action DimTable α) : Prop where
  requests (T : DimTable) : ∃ rs, (m T).2 = interner.after T rs
  flawless {T T' : DimTable} {a : α} : m T = (.ok a, T') → flaws = []
  fault {T T' : DimTable} {f : Fault} : m T = (.error f, T') →
    (∃ text, flaws.head? = some text ∧ f = .notADimension text) ∨
      T'.isFull = true ∧ f = .tableFull .dimension T'.size
  /-- Success is repeated by every later table, which has all dimensions already. -/
  again {T T' U : DimTable} {a : α} : m T = (.ok a, T') → T'.Within U → m U = (.ok a, U)

namespace Visits

theorem within {m : Action DimTable α} (hm : Visits fs m) (T : DimTable) : T.Within (m T).2 := by
  obtain ⟨rs, hrs⟩ := hm.requests T
  rw [hrs]
  exact DimTable.within_after T rs

theorem pure (a : α) : Visits [] (Pure.pure a) where
  requests T := ⟨[], rfl⟩
  flawless _ := rfl
  fault h := nomatch h
  again h _ := by
    cases h
    rfl

theorem refused (text : String) :
    Visits [text] (Action.fault (.notADimension text) : Action DimTable α) where
  requests T := ⟨[], rfl⟩
  flawless h := nomatch h
  fault h := by
    cases h
    exact .inl ⟨text, rfl, rfl⟩
  again h := nomatch h

theorem ask {r : Request} (hr : r ≠ .own) : Visits [] r.ask where
  requests _ := ⟨[r], rfl⟩
  flawless _ := rfl
  fault h := .inr (Request.ask_error h)
  again h hU := Request.again hr h hU

theorem bind {m : Action DimTable α} {k : α → Action DimTable β} (hm : Visits fs m)
    (hk : ∀ a, Visits gs (k a)) : Visits (fs ++ gs) (m >>= k) where
  requests T := by
    obtain ⟨rs, hrs⟩ := hm.requests T
    rw [Action.bind_apply]
    rcases hres : m T with ⟨f | a, T₁⟩
    · rw [hres] at hrs
      exact ⟨rs, hrs⟩
    · rw [hres] at hrs
      obtain ⟨rs', hrs'⟩ := (hk a).requests T₁
      exact ⟨rs ++ rs', by rw [interner.after_append, ← hrs, hrs']⟩
  flawless h := by
    obtain ⟨a, T₁, hfirst, hrest⟩ := Action.of_bind_ok h
    rw [hm.flawless hfirst, (hk a).flawless hrest, List.append_nil]
  fault {T T' f} h := by
    rw [Action.bind_apply] at h
    rcases hres : m T with ⟨f' | a, T₁⟩
    · rw [hres] at h
      cases h
      rcases hm.fault hres with ⟨text, hhead, hf⟩ | hfull
      · exact .inl ⟨text, by rw [List.head?_append, hhead]; rfl, hf⟩
      · exact .inr hfull
    · rw [hres] at h
      rw [hm.flawless hres]
      exact (hk a).fault h
  again {T T' U b} h hU := by
    obtain ⟨a, T₁, hfirst, hrest⟩ := Action.of_bind_ok h
    have hkept : T₁.Within T' := by
      have hwithin := (hk a).within T₁
      rwa [hrest] at hwithin
    rw [Action.bind_of_ok (hm.again hfirst (hkept.trans hU)), (hk a).again hrest hU]

theorem map {m : Action DimTable α} (hm : Visits fs m) (f : α → β) :
    Visits fs (do let a ← m; Pure.pure (f a)) := by
  have h := hm.bind fun a => pure (f a)
  rwa [List.append_nil] at h

theorem namedDim (name : String) : Visits (flaws [.dimension name]) (namedDim name) := by
  rw [flaws_singleton, flaw?]
  unfold Expr.namedDim
  split
  · exact refused ""
  · exact ask (r := .name name) nofun

theorem readConst (v : Value) :
    Visits (flaws (Expr.read (.const v)).parts) (Expr.read (.const v)).compile := by
  have hflaws : flaws (Expr.read (.const v)).parts = (Expr.read (.const v)).flaw?.toList :=
    flaws_singleton _
  rw [hflaws, flaw?, Expr.compile]
  split
  · exact refused v.text
  · exact (ask (r := .value v) nofun).map _

theorem read {e : Expr} (he : Visits (flaws e.parts) e.compile) :
    Visits (flaws (Expr.read e).parts) (Expr.read e).compile := by
  cases e with
  | dimension name =>
    rw [Expr.compile, parts, flaws_concat rfl]
    exact (namedDim name).map _
  | const v => exact readConst v
  | _ =>
    rw [Expr.compile_read, parts, flaws_concat rfl]
    · exact he.map _
    · rintro _ ⟨⟩
    · rintro _ ⟨⟩

mutual

theorem compile : ∀ e : Expr, Visits (flaws e.parts) e.compile
  | .const v => by
      simp only [Expr.compile]
      exact pure _
  | .dimension name => by
      simp only [Expr.compile]
      exact (namedDim name).map _
  | .read e => read (compile e)
  | .ident n => by
      simp only [Expr.compile]
      exact pure _
  | .apply op args => by
      rw [Expr.compile, parts, flaws_concat rfl]
      exact (compileAll args).map _
  | .cond test yes no => by
      rw [Expr.compile, parts, flaws_concat rfl, flaws_append, flaws_append, List.append_assoc]
      exact (compile test).bind fun _ => (compile yes).bind fun _ => (compile no).map _
  | .under body bindings => by
      rw [Expr.compile, parts, flaws_concat rfl, flaws_append]
      exact (compileBindings bindings).bind fun _ => (compile body).map _

theorem compileAll : ∀ es : List Expr, Visits (flaws (partsAll es)) (Expr.compileAll es)
  | [] => by
      simp only [Expr.compileAll]
      exact pure _
  | e :: es => by
      rw [Expr.compileAll, partsAll, flaws_append]
      exact (compile e).bind fun _ => (compileAll es).map _

theorem compileBindings : ∀ bs : List (Expr × Expr),
    Visits (flaws (partsBindings bs)) (Expr.compileBindings bs)
  | [] => by
      simp only [Expr.compileBindings]
      exact pure _
  | (key, value) :: rest => by
      rw [Expr.compileBindings, partsBindings, flaws_append, flaws_append, List.append_assoc]
      exact (compile key).bind fun _ => (compile value).bind fun _ => (compileBindings rest).map _

end

end Visits

variable {e : Expr}

/-- A table without a limit does not run full. -/
theorem compile_room (hlimit : T.limit = none) (e : Expr) (size : Nat) :
    (e.compile T).1 ≠ .error (.tableFull .dimension size) := by
  intro hfull
  rcases (Visits.compile e).fault (Prod.ext hfull rfl) with ⟨text, -, hf⟩ | ⟨hroom, -⟩
  · cases hf
  · have hlimit' : (e.compile T).2.limit = none :=
      ((Visits.compile e).within T).limit.trans hlimit
    rw [DimTable.isFull, hlimit'] at hroom
    cases hroom

section Room

variable (hroom : ∀ size, (e.compile T).1 ≠ .error (.tableFull .dimension size))

include hroom

/-- Where the table does not run full, the first flaw is the fault. -/
theorem flaw_of_compile_error (h : (e.compile T).1 = .error f) :
    ∃ text, e.parts.findSome? flaw? = some text ∧ f = .notADimension text := by
  rcases (Visits.compile e).fault (Prod.ext h rfl) with ⟨text, hhead, hf⟩ | ⟨-, hf⟩
  · exact ⟨text, by rw [← List.head?_filterMap]; exact hhead, hf⟩
  · exact absurd (hf ▸ h) (hroom _)

theorem compile_error_iff :
    (∃ f, (e.compile T).1 = .error f) ↔ ∃ part ∈ e.parts, part.Malformed := by
  simp only [← flaw?_isSome_iff]
  constructor
  · rintro ⟨f, hf⟩
    obtain ⟨text, htext, -⟩ := flaw_of_compile_error hroom hf
    obtain ⟨part, hpart, hflaw⟩ := List.exists_of_findSome?_eq_some htext
    exact ⟨part, hpart, by rw [hflaw]; rfl⟩
  · rintro ⟨part, hpart, hflaw⟩
    cases hc : (e.compile T).1 with
    | error f => exact ⟨f, rfl⟩
    | ok c =>
      obtain ⟨text, htext⟩ := Option.isSome_iff_exists.mp hflaw
      have hmem : text ∈ flaws e.parts := List.mem_filterMap.mpr ⟨part, hpart, htext⟩
      rw [(Visits.compile e).flawless (Prod.ext hc rfl)] at hmem
      cases hmem

end Room

end Expr
end Intensional
