import Intensional.Proofs.Code.Compiling
import Intensional.Proofs.Engine.Sessions

/-!
# Compiling in an engine

An engine compiles an expression against its table of dimensions, and changes nothing else. The
table only ever gets new keys: by compiling, by interning keys directly, and by all that happens
in a session (`Engine.Resting.session_within`). So code that an expression once had is the code
that it has from then on (`Engine.compiling_is_exact_and_stable`).
-/

namespace Intensional

open DimTable (interner)

namespace Engine

variable {s t : Engine} {e : Expr} {c : Code}

theorem compile_eq (e : Expr) (s : Engine) : compile e s = ((e.compile s.machine.dims).1,
    { s with machine := { s.machine with dims := (e.compile s.machine.dims).2 } }) := rfl

/-- Code is found again by every later table. -/
theorem compile_again (h : (compile e s).1 = .ok c)
    (ht : (compile e s).2.machine.dims.Within t.machine.dims) : compile e t = (.ok c, t) := by
  have hagain : e.compile t.machine.dims = (.ok c, t.machine.dims) :=
    (Expr.Visits.compile e).again (Prod.ext h rfl) ht
  rw [compile_eq, hagain]

/-! ## Dimensions of a session -/

theorem Change.dims_within (h : Change s t) : s.machine.dims.Within t.machine.dims := by
  cases h with
  | learn hT => exact hT
  | redefine => exact .refl _

theorem Resting.session_within (hs : s.Resting) (steps : List Step) :
    s.machine.dims.Within (s.session steps).machine.dims := by
  induction steps generalizing s with
  | nil => exact .refl _
  | cons x xs ih =>
    refine DimTable.Within.trans ?_ (ih (hs.step x).1)
    refine hs.step_keeps (I := fun t => s.machine.dims.Within t.machine.dims) ?_ ?_
    · rcases prepare_cases hs.named x with hchanges | hforget
      · exact hchanges.keeps (I := fun t => s.machine.dims.Within t.machine.dims)
          (fun hchange hst => hst.trans hchange.dims_within) (.refl _)
      · rw [hforget]
        exact .refl _
    · intro t _ _ ht task
      exact ht.trans (task.run_grows t.program t.machine).dims

theorem Resting.compile (hs : s.Resting) (e : Expr) : (compile e s).2.Resting :=
  ⟨hs.named, hs.frames, hs.depth, hs.quiet⟩

/-! ## The result -/

/-- Unless the table of dimensions runs full, compiling fails exactly if a part of the tree is
malformed, and the fault names the first of them. What has been compiled has the same code from
then on, whatever is interned in between, and needs no new dimension. All dimensions keep their
keys, and all keys their dimensions, also where compiling fails. -/
theorem compiling_is_exact_and_stable (s : Engine) (e : Expr)
    (hroom : ∀ size, (compile e s).1 ≠ .error (.tableFull .dimension size)) :
    let t := (compile e s).2
    ((∃ f, (compile e s).1 = .error f) ↔ ∃ part ∈ e.parts, part.Malformed) ∧
    (∀ f, (compile e s).1 = .error f → ∃ text,
      e.parts.findSome? Expr.flaw? = some text ∧ f = .notADimension text) ∧
    (∀ c, (compile e s).1 = .ok c →
      (∀ u rs, u.machine.dims = interner.after t.machine.dims rs → compile e u = (.ok c, u)) ∧
      (s.Resting → ∀ steps, compile e (t.session steps) = (.ok c, t.session steps))) ∧
    (∀ d key, s.machine.dims.key? d = some key → t.machine.dims.key? d = some key) ∧
    (∀ d key, s.machine.dims.roster.find? key = some d →
      t.machine.dims.roster.find? key = some d) := by
  refine ⟨Expr.compile_error_iff hroom, fun f => Expr.flaw_of_compile_error hroom,
    fun c hc => ⟨fun u rs' hu => ?_, fun hs steps => ?_⟩, fun d key hd => ?_, fun d key hd => ?_⟩
  · refine compile_again hc ?_
    rw [hu]
    exact DimTable.within_after _ rs'
  · exact compile_again hc ((hs.compile e).session_within steps)
  · obtain ⟨rs, hrs⟩ := (Expr.Visits.compile e).requests s.machine.dims
    rw [compile_eq, hrs]
    exact DimTable.keeps_roster.holder?_after hd rs
  · exact ((Expr.Visits.compile e).within s.machine.dims).find? key d hd

/-- The key of a binding is interned before the body, and both are found again after a session
that has interned another name. The name of a first operand stays interned where the second one
is refused. -/
theorem compiling_is_exact_and_stable_bindings :
    let good : Expr := .under (.read (.const (.str "colour"))) [(.dimension "x", .const (.int 1))]
    let bad : Expr := .apply "+" [.read (.dimension "y"), .read (.dimension "")]
    let s := start ⟨10, true⟩ []
    let t := (compile good s).2.session [.expression (.read (.dimension "z")) .empty]
    compile good t = (.ok (.under (.read 8) [(.const (.dim 7), .const (.int 1))]), t) ∧
      (∃ f, (compile bad s).1 = .error f) ∧ (compile bad s).2.machine.dims.find? "y" = some 7 := by
  intro good bad s t
  have hgood := compiling_is_exact_and_stable s good (Expr.compile_room rfl good)
  have hbad := compiling_is_exact_and_stable s bad (Expr.compile_room rfl bad)
  have hpart : .dimension "" ∈ bad.parts := by simp [bad, Expr.parts, Expr.partsAll]
  exact ⟨(hgood.2.2.1 _ rfl).2 (resting_start _ _) _, hbad.1.mpr ⟨_, hpart, .inl rfl⟩, rfl⟩

end Engine
end Intensional
