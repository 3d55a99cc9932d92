import Mathlib.Data.List.Nodup
import Intensional.Equation.Group

/-!
# Groups as they are built

A group is built by adding, removing and replacing equations. A change that is refused, or that
finds nothing to change, leaves it as it was. Each equation is installed with a number that none
had before and placed after all that it does not come before, so the equations of a group are in
strict order of their times and numbers, and no two have one identity (`Group.InOrder`). So there
is one definition under each identity, and two groups that agree on all of them have the same
equations, up to times, numbers and places (`Group.InOrder.perm_iff`).
-/

namespace Intensional

/-! ## The identities of a group -/

namespace Group

variable {g g' : Group} {id : Equation.Id} {d : Definition} {time : Nat}

/-- The identities of the equations, in the order of these. -/
def ids (g : Group) : List Equation.Id := g.equations.map (·.id)

theorem contains_iff : g.contains id = true ↔ id ∈ g.ids := by
  rw [contains, find?, List.find?_isSome, ids, List.mem_map]
  simp only [beq_iff_eq]

theorem place_perm (e : Equation) : ∀ es : List Equation, (place e es).Perm (e :: es)
  | [] => .refl _
  | f :: fs => by
    rw [place]
    split
    · exact .refl _
    · exact ((place_perm e fs).cons f).trans (.swap e f fs)

theorem ids_install : (g.install id d time).ids.Perm (id :: g.ids) := (place_perm _ _).map _

theorem ids_erase : (g.erase id).ids = g.ids.erase id := by
  rw [ids, ids, List.erase_eq_eraseP', List.eraseP_map]
  rfl

theorem ids_eq_nil : g.ids = [] ↔ g.equations = [] := List.map_eq_nil_iff

/-- Replacing changes the definition under an identity, and the identities not at all. -/
theorem ids_replace? (h : g.replace? id d time = some g') : g'.ids.Perm g.ids := by
  unfold replace? at h
  split at h
  · rename_i hid
    cases h
    have hinstall : ((g.erase id).install id d time).ids.Perm (id :: (g.erase id).ids) :=
      ids_install
    rw [ids_erase] at hinstall
    exact hinstall.trans (List.perm_cons_erase (contains_iff.mp hid)).symm
  · cases h

end Group

/-! ## The order of equations -/

namespace Equation

variable {e f g : Equation}

theorem before_iff : e.before f = true ↔ e.time < f.time ∨ e.time = f.time ∧ e.seq < f.seq := by
  simp [before]

theorem before_trans (hef : e.before f = true) (hfg : f.before g = true) :
    e.before g = true := by
  rw [before_iff] at *
  omega

/-- Of two equations with different numbers one comes before the other. -/
theorem before_of_not_before (hseq : e.seq ≠ f.seq) (h : ¬ e.before f = true) :
    f.before e = true := by
  rw [before_iff] at *
  omega

end Equation

namespace Group

variable {g : Group} {id : Equation.Id} {d : Definition} {time : Nat} {e : Equation}

/-- Placing an equation with a new number keeps the order. -/
theorem pairwise_place : ∀ {es : List Equation}, (∀ f ∈ es, e.seq ≠ f.seq) →
    es.Pairwise (fun f f' => f.before f' = true) →
      (place e es).Pairwise fun f f' => f.before f' = true
  | [], _, _ => List.pairwise_singleton _ _
  | f :: fs, hseq, hes => by
    obtain ⟨hf, hfs⟩ := List.pairwise_cons.mp hes
    obtain ⟨hef, hefs⟩ := List.forall_mem_cons.mp hseq
    rw [place]
    split
    · rename_i hbefore
      refine List.pairwise_cons.mpr ⟨List.forall_mem_cons.mpr ⟨hbefore, fun x hx => ?_⟩, hes⟩
      exact Equation.before_trans hbefore (hf x hx)
    · rename_i hbefore
      refine List.pairwise_cons.mpr ⟨fun x hx => ?_, pairwise_place hefs hfs⟩
      rcases mem_place.mp hx with rfl | hx
      · exact Equation.before_of_not_before hef hbefore
      · exact hf x hx

/-- The equations are in strict order, their numbers are given out, and no two have one
identity. -/
structure InOrder (g : Group) : Prop where
  sorted : g.equations.Pairwise fun e f => e.before f = true
  numbered : ∀ e ∈ g.equations, e.seq < g.nextSeq
  distinct : g.ids.Nodup

namespace InOrder

theorem empty (name : String) : (Group.empty name).InOrder := ⟨.nil, nofun, .nil⟩

theorem install (hg : g.InOrder) (hid : id ∉ g.ids) : (g.install id d time).InOrder where
  sorted := pairwise_place (fun f hf => Nat.ne_of_gt (hg.numbered f hf)) hg.sorted
  numbered e he := by
    show e.seq < g.nextSeq + 1
    rcases mem_install.mp he with rfl | he
    · exact Nat.lt_succ_self _
    · exact Nat.lt_succ_of_lt (hg.numbered e he)
  distinct := ids_install.nodup_iff.mpr (List.nodup_cons.mpr ⟨hid, hg.distinct⟩)

theorem erase (hg : g.InOrder) (id : Equation.Id) : (g.erase id).InOrder where
  sorted := hg.sorted.sublist List.eraseP_sublist
  numbered e he := hg.numbered e (List.eraseP_subset he)
  distinct := by
    rw [ids_erase]
    exact hg.distinct.erase id

theorem not_mem_erase (hg : g.InOrder) (id : Equation.Id) : id ∉ (g.erase id).ids := by
  rw [ids_erase]
  exact hg.distinct.not_mem_erase

end InOrder

/-! ## Changes -/

/-- A change of a group. -/
inductive Change where
  | add (id : Equation.Id) (d : Definition) (time : Nat)
  | remove (id : Equation.Id)
  | replace (id : Equation.Id) (d : Definition) (time : Nat)

/-- Make a change; if it is refused or finds nothing to change, the group stays as it is. -/
def change (g : Group) : Change → Group
  | .add id d time => ((g.add id d time).toOption).getD g
  | .remove id => g.erase id
  | .replace id d time => (g.replace? id d time).getD g

/-- The group that a list of changes makes of an empty one. -/
def build (name : String) (changes : List Change) : Group := changes.foldl change (.empty name)

theorem InOrder.change (hg : g.InOrder) (c : Change) : (g.change c).InOrder := by
  cases c with
  | add id d time =>
    rw [Group.change, add]
    split
    · exact hg
    · rename_i hid
      exact hg.install fun hmem => hid (contains_iff.mpr hmem)
  | remove id => exact hg.erase id
  | replace id d time =>
    rw [Group.change, replace?]
    split
    · exact (hg.erase id).install (hg.not_mem_erase id)
    · exact hg

theorem inOrder_build (name : String) (changes : List Change) : (build name changes).InOrder := by
  have go : ∀ (changes : List Change) {g : Group}, g.InOrder →
      (changes.foldl Group.change g).InOrder := by
    intro changes
    induction changes with
    | nil => exact fun hg => hg
    | cons c changes ih => exact fun hg => ih (hg.change c)
  exact go changes (.empty name)

/-! ## What a group defines -/

/-- The definition under an identity. -/
def definition? (g : Group) (id : Equation.Id) : Option Definition :=
  (g.find? id).map (·.definition)

end Group

/-- What an equation says under which identity: all of it but its time and number. -/
def Equation.clause (e : Equation) : Equation.Id × Definition := (e.id, e.definition)

namespace Group

variable {g g₁ g₂ : Group} {id : Equation.Id} {d : Definition}

theorem InOrder.find?_eq_some {e : Equation} (hg : g.InOrder) :
    g.find? id = some e ↔ e ∈ g.equations ∧ e.id = id := by
  have found : ∀ {id e}, g.find? id = some e → e ∈ g.equations ∧ e.id = id := by
    intro id e hfind
    rw [find?] at hfind
    exact ⟨List.mem_of_find?_eq_some hfind, by simpa using List.find?_some hfind⟩
  refine ⟨found, ?_⟩
  rintro ⟨he, rfl⟩
  obtain ⟨f, hfind⟩ := Option.isSome_iff_exists.mp (contains_iff.mpr (List.mem_map_of_mem he))
  obtain ⟨hf, hid⟩ := found hfind
  obtain rfl := List.inj_on_of_nodup_map hg.distinct hf he hid
  exact hfind

theorem InOrder.definition?_eq_some (hg : g.InOrder) :
    g.definition? id = some d ↔ (id, d) ∈ g.equations.map (·.clause) := by
  rw [definition?, Option.map_eq_some_iff, List.mem_map]
  refine exists_congr fun e => ?_
  rw [hg.find?_eq_some, Equation.clause, Prod.mk.injEq, and_assoc]

theorem InOrder.nodup_clauses (hg : g.InOrder) : (g.equations.map (·.clause)).Nodup := by
  refine List.Nodup.of_map Prod.fst ?_
  rw [List.map_map]
  exact hg.distinct

/-- Two groups have the same definitions if they have the same equations in some order. -/
theorem InOrder.perm_iff (hg₁ : g₁.InOrder) (hg₂ : g₂.InOrder) :
    (g₁.equations.map (·.clause)).Perm (g₂.equations.map (·.clause)) ↔
      ∀ id, g₁.definition? id = g₂.definition? id := by
  rw [List.perm_ext_iff_of_nodup hg₁.nodup_clauses hg₂.nodup_clauses, Prod.forall]
  refine forall_congr' fun id => ?_
  rw [Option.ext_iff]
  exact forall_congr' fun d => by rw [hg₁.definition?_eq_some, hg₂.definition?_eq_some]

end Group

end Intensional
