import Intensional.Proofs.Evaluation.Grounding

/-!
# The dimensions that were read are a sound variance

Without caching, the dimensions that an evaluation notes as read are all that it depends on.
Wherever another context holds the same at them, the evaluation answers the same value, notes
the same reads and interns the same new dimensions.

The machine need not be at rest: the two runs may start inside other evaluations, with any
frames and any evaluations pending, as long as they meet no cycle.
-/

namespace Intensional

open Machine DimTable

namespace Program

variable {p : Program} {s : Machine}

/-- A run without a cycle in a frame of its own that accords with a meaning answers what is
meant, reads exactly what the meaning reads and interns exactly what the meaning interns. -/
theorem accord_exact (hoff : p.config.caching = false) {room : Nat} {i : Vantage} {v : Value}
    {t : Trace} {ran : Except Fault Value × Machine}
    (h : Accord p .identity room i Likeness.identity.same (s.push (.new none)) v t ran)
    (hloops : ran.2.stats.loops = s.stats.loops)
    (hanswers : (∃ a, ran.1 = .ok a) ∨
      i.height ≤ room ∧ Foresees i.reference.number s.dims t.keys) :
    ran.1 = .ok v ∧ (∀ f fs, ran.2.frames = f :: fs → ∀ d, d ∈ f.reads ↔ d ∈ t.reads) ∧
      Adds s.dims t.keys ran.2.dims := by
  cases h with
  | looped hless => exact absurd hloops (Nat.ne_of_gt hless)
  | error _ _ hroom =>
    rcases hanswers with ⟨a, ha⟩ | hanswers
    · cases ha
    · exact absurd hanswers hroom
  | ok _ hlike hheeds htracks _ =>
    refine ⟨congrArg Except.ok hlike, fun f fs hframes d => ?_, ?_⟩
    · obtain ⟨hreads, hexact⟩ := hheeds f fs hframes
      refine ⟨fun hd => ?_, hreads d⟩
      exact (hexact hoff _ _ rfl d hd).resolve_left IndexSet.not_mem_empty
    · obtain ⟨used, hused, hadds⟩ := htracks
      have : used = t.keys := List.forall₂_eq_eq_eq (α := Value) ▸ hused
      exact this ▸ hadds

section Tracked

variable (hoff : p.config.caching = false) {room : Nat} {code : Code} {k : Context}

include hoff

/-- A run in a frame of its own that answers a value and meets no cycle means something. -/
theorem tracked_means {v : Value} {reads : IndexSet} {s' : Machine}
    (hrun : EvalM.tracked (code.eval p.vocabulary.operators (p.demand room) k) s =
      (.ok (.ok v, reads), s')) (hloops : s'.stats.loops = s.stats.loops) :
    ∃ w t height, height ≤ room ∧ code.interpret p.vocabulary.operators Meaning.call k
      ((p.reference s'.dims).sense height) = some (w, t) := by
  have hops := Likeness.keeps_identity p.vocabulary.operators
  have hL : p.config.caching = true → Likeness.identity = .equality := fun hcaching =>
    Bool.noConfusion (hoff.symm.trans hcaching)
  have hfollow := names_follow hops hL room
  obtain ⟨r, b, f, fs, hbody, -, htracked⟩ :=
    (hfollow.keeps_code code k).tracked_cases s
  cases htracked.symm.trans hrun
  have hgrounds := (names_ground hops hL room).code_grounds (k := k) hops hfollow code s.reader
    (r := p.reference b.dims) (s.push (.new none)) (grounded_of_uncached hoff _) rfl
  rw [hbody] at hgrounds
  obtain ⟨-, -, hsettled⟩ := hgrounds hloops (p.reference_describes _ _ _)
    b.dims.numberedBy_number
  obtain ⟨w, t, height, hroom, hmeans⟩ := hsettled v rfl
  exact ⟨w, t, height, hroom hoff, hmeans height (Nat.le_refl _)⟩

/-- A run in a frame of its own that meets no cycle comes to exactly what is meant, if it answers
a value, or has the room for it and the numbering foresees what is interned. -/
theorem tracked_exact {T : DimTable} {height : Nat} {v : Value} {t : Trace}
    {outcome : Except Fault (Except Fault Value × IndexSet)} {s' : Machine}
    (hmeans : code.interpret p.vocabulary.operators Meaning.call k
      ((p.reference T).sense height) = some (v, t))
    (hrun : EvalM.tracked (code.eval p.vocabulary.operators (p.demand room) k) s = (outcome, s'))
    (hloops : s'.stats.loops = s.stats.loops)
    (hanswers : (∃ a reads, outcome = .ok (.ok a, reads) ∧ s'.dims = T) ∨
      height ≤ room ∧ Foresees T.number s.dims t.keys) :
    ∃ reads, outcome = .ok (.ok v, reads) ∧ (∀ d, d ∈ reads ↔ d ∈ t.reads) ∧
      Adds s.dims t.keys s'.dims := by
  have hops := Likeness.keeps_identity p.vocabulary.operators
  have hfollow := names_follow hops (fun hcaching => Bool.noConfusion (hoff.symm.trans hcaching))
    room
  obtain ⟨r, b, f, fs, hbody, hframes, htracked⟩ :=
    (hfollow.keeps_code code k).tracked_cases s
  cases htracked.symm.trans hrun
  have haccord := hfollow.code_follows hops code
    (i := ⟨p.reference T, height, fun _ => True, k, k, s.reader⟩) rfl (.refl _ k)
    (s.push (.new none)) (grounded_of_uncached hoff _).consistent rfl
  rw [hbody] at haccord
  have hguided : Guided ⟨p.reference T, height, fun _ => True, k, k, s.reader⟩
      (s.push (.new none)) t.keys (r, b) := by
    rcases hanswers with ⟨-, -, -, rfl⟩ | ⟨-, hforesees⟩
    · exact .everywhere (fun _ => trivial) b.dims.numberedBy_number
    · exact ⟨.inr ⟨fun _ => trivial, hforesees⟩, .inl fun _ => trivial⟩
  obtain ⟨hv, hreads, hadds⟩ := accord_exact hoff
    (haccord (p.reference_describes _ _ _) v t hmeans hguided) hloops
    (hanswers.imp (fun ⟨a, _, ha, _⟩ => ⟨a, congrArg Prod.fst (Except.ok.inj ha)⟩) id)
  obtain rfl : r = .ok v := hv
  exact ⟨f.reads, rfl, hreads f fs hframes, hadds⟩

end Tracked

/-- A context that holds the same at the dimensions that were read gives the same value, the same
reads and the same new dimensions. -/
theorem reads_are_variance (hoff : p.config.caching = false) (room : Nat) (code : Code)
    {k l : Context} {s₁ s₂ : Machine} {v : Value} {reads : IndexSet}
    {outcome : Except Fault (Except Fault Value × IndexSet)}
    (hk : EvalM.tracked (code.eval p.vocabulary.operators (p.demand room) k) s =
      (.ok (.ok v, reads), s₁))
    (hl : EvalM.tracked (code.eval p.vocabulary.operators (p.demand room) l) s = (outcome, s₂))
    (hloops₁ : s₁.stats.loops = s.stats.loops) (hloops₂ : s₂.stats.loops = s.stats.loops)
    (hsame : ∀ d ∈ reads, k.get? d = l.get? d) :
    outcome = .ok (.ok v, reads) ∧ s₂.dims = s₁.dims := by
  obtain ⟨w, t, height, hroom, hmeans⟩ := tracked_means hoff hk hloops₁
  obtain ⟨_, houtcome, hreads, hadds⟩ :=
    tracked_exact hoff hmeans hk hloops₁ (.inl ⟨v, reads, rfl, rfl⟩)
  cases houtcome
  have hagree : Likeness.identity.Agree (· ∈ t.reads) k l := fun d hd => by
    rw [hsame d ((hreads d).mpr hd)]
    exact Likeness.rel_refl _
  obtain ⟨_, ⟨_, keys⟩, hmeans', rfl, rfl, hkeys⟩ := Reference.code_depends
    (r := p.reference s₁.dims) (Likeness.keeps_identity p.vocabulary.operators) hmeans hagree
  obtain rfl : t.keys = keys := List.forall₂_eq_eq_eq (α := Value) ▸ hkeys
  obtain ⟨reads', rfl, hreads', hadds'⟩ := tracked_exact hoff hmeans' hl hloops₂
    (.inr ⟨hroom, _, hadds, s₁.dims.numberedBy_number⟩)
  obtain rfl : reads' = reads := IndexSet.ext_mem fun d => (hreads' d).trans (hreads d).symm
  exact ⟨rfl, hadds'.unique hadds⟩

/-- A name that reads the dimension of a string, where a guard on another dimension holds. -/
def computedRead : Program :=
  let guarded : Definition := ⟨.ofPairs [(20, .int 1)], none, .readAt (.const (.str "x"))⟩
  let group := (Group.empty "f").install ⟨1⟩ guarded 0
  Program.setGroup (.empty ⟨5, false⟩) (group.install ⟨2⟩ (.always (.const (.int 0))) 1)

/-- The name under a binding of the guarded dimension, at a context that binds another one. -/
def computedReadAt (x : Int64) : Except Fault (Except Fault Value × IndexSet) × Machine :=
  let code : Code := .under (.ident "f") [(.const (.dim 20), .const (.int 1))]
  EvalM.tracked (code.eval computedRead.vocabulary.operators (computedRead.demand 5)
    (.ofList [(9, .int x)])) .initial

/-- The string has been interned as dimension 7, and this is all that has been read. -/
theorem reads_are_variance_computed :
    (computedReadAt 2).1 = .ok (.ok (.special .dimension), .ofList [7]) ∧
      (computedReadAt 2).2.dims = (computedReadAt 1).2.dims := by
  refine reads_are_variance (p := computedRead) (s := .initial) rfl 5
    (.under (.ident "f") [(.const (.dim 20), .const (.int 1))]) (k := .ofList [(9, .int 1)])
    (l := .ofList [(9, .int 2)]) (v := .special .dimension) (Prod.ext rfl rfl) (Prod.ext rfl rfl)
    rfl rfl fun d hd => ?_
  obtain rfl : d = 7 := by simpa using hd
  rfl

end Program

end Intensional
