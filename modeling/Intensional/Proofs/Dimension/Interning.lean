import Mathlib.Data.String.Basic
import Intensional.Proofs.Dimension.Numbering

/-!
# Tables that hand out numbers

The table of dimensions and the table of types hand out numbers by the same laws
(`Interner.Lawful`). A number is never taken back: it stays with the key that it was handed out
for, and every later request for an equal key is answered by it. Otherwise no two requests get
one number. New numbers are consecutive. A request fails exactly if it needs a new number of a
table that is full, and then nothing changes.

Both tables keep a roster, so the laws are proved once. What a single request can do to the
roster is said by `Interner.Step`; all laws follow from this and from what every step preserves.
-/

namespace Intensional

/-- How a table that hands out numbers is used. The table has a state `σ`, is sent requests `ρ`,
and hands out numbers for keys `κ`. -/
structure Interner (σ ρ κ : Type) where
  ask : ρ → Action σ Nat
  /-- A request names its number itself, or wants a number for a key. -/
  wants : ρ → Nat ⊕ κ
  /-- All requests for the key have one number. -/
  shared : κ → Bool
  named : String → κ
  /-- The number of a name, without asking for a new one. -/
  find? : σ → String → Option Nat
  /-- What a number was handed out for. -/
  holder? : σ → Nat → Option κ
  size : σ → Nat
  limit : σ → Option Nat
  kind : InternTable

namespace Interner

variable {σ ρ κ : Type} (I : Interner σ ρ κ)

/-- The state after some requests, in order. -/
def after (s : σ) (rs : List ρ) : σ := rs.foldl (fun s r => (I.ask r s).2) s

theorem after_append (s : σ) (rs rs' : List ρ) :
    I.after s (rs ++ rs') = I.after (I.after s rs) rs' := List.foldl_append

/-- Some requests in order, each with its answer. -/
def transcript (s : σ) : List ρ → List (ρ × Except Fault Nat)
  | [] => []
  | r :: rs => (r, (I.ask r s).1) :: transcript (I.ask r s).2 rs

/-- The table holds as many entries as it may. -/
def Full (s : σ) : Prop := ∃ limit, I.limit s = some limit ∧ limit ≤ I.size s

/-- The laws of a table from a state on, whatever it is asked. -/
structure Lawful [BEq κ] (start : σ) : Prop where
  /-- A request that names its number gets it, and changes nothing. -/
  direct (past : List ρ) {r : ρ} {i : Nat} : I.wants r = .inl i →
    I.ask r (I.after start past) = (.ok i, I.after start past)
  /-- A request for a key gets a number that has been handed out for an equal key. -/
  given (past : List ρ) {r : ρ} {key : κ} {i : Nat} {s : σ} : I.wants r = .inr key →
    I.ask r (I.after start past) = (.ok i, s) →
      ∃ held, I.holder? s i = some held ∧ (held == key) = true
  /-- A number stays with its key, and is the answer to all requests for an equal key. -/
  kept (past future : List ρ) {i : Nat} {held : κ} : I.holder? (I.after start past) i = some held →
    let s := I.after start (past ++ future)
    I.holder? s i = some held ∧ (I.shared held = true → ∀ r key, I.wants r = .inr key →
      (held == key) = true → I.ask r s = (.ok i, s))
  /-- Of two requests for keys both get one number exactly if they are for one shared key. -/
  distinct (rs : List ρ) : (I.transcript start rs).Pairwise fun a b => ∀ key key' i j,
    I.wants a.1 = .inr key → I.wants b.1 = .inr key' → a.2 = .ok i → b.2 = .ok j →
      (i = j ↔ I.shared key = true ∧ (key == key') = true)
  /-- A number is an old one, and then nothing changes, or the next one. -/
  consecutive (past : List ρ) {r : ρ} {key : κ} {i : Nat} {s : σ} : I.wants r = .inr key →
    I.ask r (I.after start past) = (.ok i, s) → s = I.after start past ∨
      i = I.size (I.after start past) ∧ I.size s = I.size (I.after start past) + 1
  /-- The numbers that have been handed out are those below the size. -/
  bounded (past : List ρ) (i : Nat) :
    (I.holder? (I.after start past) i).isSome = true ↔ i < I.size (I.after start past)
  /-- A request fails exactly if it needs a new number and there are as many as there may be. -/
  refused (past : List ρ) (r : ρ) :
    (∃ e, (I.ask r (I.after start past)).1 = .error e) ↔ ∃ key, I.wants r = .inr key ∧
      (I.shared key = true → ∀ i held, I.holder? (I.after start past) i = some held →
        (held == key) = false) ∧
      ∃ limit, I.limit start = some limit ∧ limit ≤ I.size (I.after start past)
  /-- A request that fails changes nothing, and says how many entries there are. -/
  unchanged (past : List ρ) {r : ρ} {e : Fault} {s : σ} :
    I.ask r (I.after start past) = (.error e, s) →
      s = I.after start past ∧ e = .tableFull I.kind (I.size (I.after start past))
  /-- A name is found exactly under the number that was handed out for it. -/
  found (past : List ρ) (name : String) (i : Nat) : I.find? (I.after start past) name = some i ↔
    I.holder? (I.after start past) i = some (I.named name)

end Interner

/-! ## The two tables -/

namespace DimTable

inductive Request where
  | name (n : String)
  | value (v : Value)
  | own

namespace Request

def ask : Request → Action DimTable Dim
  | .name n => intern n
  | .value v => internValue v
  | .own => fresh

def wants : Request → Dim ⊕ DimKey
  | .name n => .inr (.named n)
  | .value (.dim d) => .inl d
  | .value v => .inr (.value v)
  | .own => .inr .anonymous

end Request

def shared : DimKey → Bool
  | .anonymous => false
  | _ => true

def interner : Interner DimTable Request DimKey where
  ask := Request.ask
  wants := Request.wants
  shared := shared
  named := .named
  find? := find?
  holder? := key?
  size := size
  limit := limit
  kind := .dimension

end DimTable

def TypeTable.interner : Interner TypeTable String String where
  ask := register
  wants := .inr
  shared _ := true
  named := id
  find? := find?
  holder? := name?
  size := size
  limit _ := some capacity
  kind := .type

/-! ## One request to a roster -/

namespace Interner

variable {σ ρ κ : Type} [BEq κ] [Digest κ] [EquivBEq κ] [LawfulDigest κ]

/-- What a request for a key does to the roster of a table. -/
inductive Step (I : Interner σ ρ κ) (roster : σ → Roster κ) (s : σ) (key : κ) :
    Except Fault Nat × σ → Prop
  | known {i : Nat} : I.shared key = true → (roster s).find? key = some i →
    Step I roster s key (.ok i, s)
  | added {s' : σ} (new : (roster s).find? key = none) : I.shared key = true → ¬ I.Full s →
    roster s' = (roster s).add key new → I.limit s' = I.limit s →
    Step I roster s key (.ok (roster s).size, s')
  | skipped {s' : σ} : I.shared key = false → ¬ I.Full s → roster s' = (roster s).skip →
    I.limit s' = I.limit s → Step I roster s key (.ok (roster s).size, s')
  | refused : (I.shared key = true → (roster s).find? key = none) → I.Full s →
    Step I roster s key (.error (.tableFull I.kind (roster s).size), s)

/-- The table keeps a roster. Numbers that the roster hands out to no key are shown as handed out
for `blank`. -/
structure Keeps (I : Interner σ ρ κ) (roster : σ → Roster κ) (blank : Option κ) : Prop where
  direct (s : σ) {r : ρ} {i : Nat} : I.wants r = .inl i → I.ask r s = (.ok i, s)
  step (s : σ) {r : ρ} {key : κ} : I.wants r = .inr key → I.Step roster s key (I.ask r s)
  size (s : σ) : I.size s = (roster s).size
  holder? (s : σ) (i : Nat) : I.holder? s i = ((roster s).holder? i).bind (·.or blank)
  find? (s : σ) (name : String) : I.find? s name = (roster s).find? (I.named name)
  shared_named (name : String) : I.shared (I.named name) = true
  eq_named {key : κ} {name : String} : (key == I.named name) = true → key = I.named name
  shared_congr {key key' : κ} : (key == key') = true → I.shared key = I.shared key'
  shared_blank : ∀ b ∈ blank, I.shared b = false
  blank_of_not_shared {key : κ} : I.shared key = false → ∃ b ∈ blank, (b == key) = true

/-- The roster has handed out the number for the key. -/
def Holds (I : Interner σ ρ κ) (r : Roster κ) (i : Nat) (key : κ) : Prop :=
  ∃ entry, r.holder? i = some entry ∧
    if I.shared key then ∃ held, entry = some held ∧ (held == key) = true else entry = none

variable {I : Interner σ ρ κ} {roster : σ → Roster κ} {blank : Option κ} {s s' : σ}
  {key key' : κ} {i j : Nat} {ran : Except Fault Nat × σ}

namespace Step

variable (h : I.Step roster s key ran)

include h

/-- What has been handed out stays so. -/
theorem holder? {entry : Option κ} (hi : (roster s).holder? i = some entry) :
    (roster ran.2).holder? i = some entry := by
  have hne : i ≠ (roster s).size := by
    rintro rfl
    rw [Roster.holder?_eq_none_iff.mpr (Nat.le_refl _)] at hi
    cases hi
  cases h with
  | known => exact hi
  | added new _ _ hroster => rw [hroster, Roster.holder?_add, if_neg hne, hi]
  | skipped _ _ hroster => rw [hroster, Roster.holder?_skip, if_neg hne, hi]
  | refused => exact hi

theorem limit : I.limit ran.2 = I.limit s := by
  cases h with
  | known => rfl
  | added _ _ _ _ hlimit => exact hlimit
  | skipped _ _ _ hlimit => exact hlimit
  | refused => rfl

/-- A number without a key has only been handed out where a key is not shared. -/
theorem keyed (hkeys : ∀ key, I.shared key = true)
    (hs : ∀ i, (roster s).holder? i ≠ some none) : (roster ran.2).holder? i ≠ some none := by
  cases h with
  | known => exact hs i
  | added new _ _ hroster =>
    rw [hroster, Roster.holder?_add]
    split
    · exact nofun
    · exact hs i
  | skipped hown => rw [hkeys key] at hown; cases hown
  | refused => exact hs i

end Step

/-- A request for a key is answered by a number that holds it. -/
theorem Step.holds (h : I.Step roster s key (.ok i, s')) : I.Holds (roster s') i key := by
  unfold Holds
  generalize hran : ((.ok i, s') : Except Fault Nat × σ) = ran at h
  cases h with
  | known hshared hfind =>
    cases hran
    obtain ⟨held, hheld, hkey⟩ := Roster.find?_eq_some_iff.mp hfind
    exact ⟨some held, hheld, by rw [if_pos hshared]; exact ⟨held, rfl, hkey⟩⟩
  | added new hshared _ hroster =>
    cases hran
    refine ⟨some key, ?_, by rw [if_pos hshared]; exact ⟨key, rfl, BEq.refl key⟩⟩
    rw [hroster, Roster.holder?_add, if_pos rfl]
  | skipped hown _ hroster =>
    cases hran
    refine ⟨none, ?_, by rw [hown]; rfl⟩
    rw [hroster, Roster.holder?_skip, if_pos rfl]
  | refused => cases hran

omit [EquivBEq κ] [LawfulDigest κ] in
theorem Holds.find? (h : I.Holds (roster s) i key) (hshared : I.shared key = true) :
    (roster s).find? key = some i := by
  obtain ⟨entry, hentry, hheld⟩ := h
  rw [if_pos hshared] at hheld
  obtain ⟨held, rfl, hkey⟩ := hheld
  exact Roster.find?_eq_some_iff.mpr ⟨held, hentry, hkey⟩

/-- A later request gets the number of a key exactly if it is for an equal key that is shared. -/
theorem Step.eq_iff (hcongr : ∀ {key key'}, (key == key') = true → I.shared key = I.shared key')
    (hi : I.Holds (roster s) i key) (h : I.Step roster s key' (.ok j, s')) :
    i = j ↔ I.shared key = true ∧ (key == key') = true := by
  have hlt : i < (roster s).size := by
    obtain ⟨entry, hentry, -⟩ := hi
    refine Nat.lt_of_not_le fun hle => ?_
    rw [Roster.holder?_eq_none_iff.mpr hle] at hentry
    cases hentry
  generalize hran : ((.ok j, s') : Except Fault Nat × σ) = ran at h
  cases h with
  | known hshared hfind =>
    cases hran
    constructor
    · rintro rfl
      obtain ⟨entry, hentry, hheld⟩ := hi
      obtain ⟨held, hheld', hkey'⟩ := Roster.find?_eq_some_iff.mp hfind
      cases hentry.symm.trans hheld'
      split at hheld
      · obtain ⟨_, heq, hkey⟩ := hheld
        cases heq
        exact ⟨‹_›, BEq.trans (BEq.symm hkey) hkey'⟩
      · cases hheld
    · rintro ⟨hown, heq⟩
      have hfind' := hi.find? hown
      rw [Roster.find?_congr _ heq, hfind] at hfind'
      exact (Option.some.inj hfind').symm
  | added new =>
    cases hran
    refine ⟨fun heq => absurd heq (Nat.ne_of_lt hlt), fun ⟨hown, heq⟩ => ?_⟩
    have hfind := hi.find? hown
    rw [Roster.find?_congr _ heq, new] at hfind
    cases hfind
  | skipped hown =>
    cases hran
    refine ⟨fun heq => absurd heq (Nat.ne_of_lt hlt), fun ⟨hshared, heq⟩ => ?_⟩
    rw [hcongr heq, hown] at hshared
    cases hshared
  | refused => cases hran

/-! ## Any number of requests -/

namespace Keeps

variable (h : I.Keeps roster blank)

include h

theorem ask_keeps (s : σ) (r : ρ) : I.limit (I.ask r s).2 = I.limit s ∧
    ∀ i entry, (roster s).holder? i = some entry →
      (roster (I.ask r s).2).holder? i = some entry := by
  cases hr : I.wants r with
  | inl i => rw [h.direct s hr]; exact ⟨rfl, fun _ _ => id⟩
  | inr key => exact ⟨(h.step s hr).limit, fun _ _ => (h.step s hr).holder?⟩

theorem after_keeps (s : σ) (rs : List ρ) : I.limit (I.after s rs) = I.limit s ∧
    ∀ i entry, (roster s).holder? i = some entry →
      (roster (I.after s rs)).holder? i = some entry := by
  induction rs generalizing s with
  | nil => exact ⟨rfl, fun _ _ => id⟩
  | cons r rs ih =>
    obtain ⟨hlimit, hholder⟩ := h.ask_keeps s r
    obtain ⟨hlimit', hholder'⟩ := ih (I.ask r s).2
    exact ⟨hlimit'.trans hlimit, fun i entry hi => hholder' i entry (hholder i entry hi)⟩

theorem after_keyed (hkeys : ∀ key, I.shared key = true) (s : σ) (rs : List ρ)
    (hs : ∀ i, (roster s).holder? i ≠ some none) :
    ∀ i, (roster (I.after s rs)).holder? i ≠ some none := by
  induction rs generalizing s with
  | nil => exact hs
  | cons r rs ih =>
    refine ih (I.ask r s).2 fun i => ?_
    cases hr : I.wants r with
    | inl d => rw [h.direct s hr]; exact hs i
    | inr key => exact (h.step s hr).keyed hkeys hs

/-- What holds a number is shown as an equal key. -/
theorem shown (hi : I.Holds (roster s) i key) :
    ∃ held, I.holder? s i = some held ∧ (held == key) = true := by
  obtain ⟨entry, hentry, hheld⟩ := hi
  rw [h.holder?, hentry]
  cases hshared : I.shared key with
  | true =>
    rw [hshared, if_pos rfl] at hheld
    obtain ⟨held, rfl, hkey⟩ := hheld
    exact ⟨held, rfl, hkey⟩
  | false =>
    obtain rfl : entry = none := by simpa [hshared] using hheld
    obtain ⟨b, hb, hkey⟩ := h.blank_of_not_shared hshared
    exact ⟨b, hb, hkey⟩

/-- A shared key that a number is shown with is the one that it was handed out to. -/
theorem find?_of_shown {held : κ} (hi : I.holder? s i = some held) (hshared : I.shared held = true)
    (hkey : (held == key) = true) : (roster s).find? key = some i := by
  rw [h.holder?] at hi
  obtain ⟨entry, hentry, hor⟩ := Option.bind_eq_some_iff.mp hi
  cases entry with
  | some _ =>
    cases hor
    exact Roster.find?_eq_some_iff.mpr ⟨held, hentry, hkey⟩
  | none =>
    rw [h.shared_blank held hor] at hshared
    cases hshared

/-- A key has no number exactly if no number is shown with an equal key. -/
theorem find?_eq_none (hshared : I.shared key = true) : (roster s).find? key = none ↔
    ∀ i held, I.holder? s i = some held → (held == key) = false := by
  constructor
  · intro hnone i held hheld
    refine Bool.eq_false_iff.mpr fun hkey => ?_
    have hfind := h.find?_of_shown hheld ((h.shared_congr hkey).trans hshared) hkey
    cases hnone.symm.trans hfind
  · refine fun hall => Option.eq_none_iff_forall_ne_some.mpr fun i hi => ?_
    obtain ⟨held, hentry, hkey⟩ := Roster.find?_eq_some_iff.mp hi
    have hheld : I.holder? s i = some held := by rw [h.holder?, hentry]; rfl
    cases (hall i held hheld).symm.trans hkey

/-- The answers after a number has been handed out. -/
theorem eq_iff_of_holds (hi : I.Holds (roster s) i key) (rs : List ρ) :
    ∀ a ∈ I.transcript s rs, ∀ key' j, I.wants a.1 = .inr key' → a.2 = .ok j →
      (i = j ↔ I.shared key = true ∧ (key == key') = true) := by
  induction rs generalizing s with
  | nil => exact fun a ha => (List.not_mem_nil ha).elim
  | cons r rs ih =>
    refine List.forall_mem_cons.mpr ⟨fun key' j hr hj => ?_, ih ?_⟩
    · have hstep := h.step s hr
      rw [show I.ask r s = (.ok j, (I.ask r s).2) from Prod.ext hj rfl] at hstep
      exact hstep.eq_iff h.shared_congr hi
    · obtain ⟨entry, hentry, hheld⟩ := hi
      exact ⟨entry, (h.ask_keeps s r).2 i entry hentry, hheld⟩

theorem distinct (s : σ) (rs : List ρ) :
    (I.transcript s rs).Pairwise fun a b => ∀ key key' i j, I.wants a.1 = .inr key →
      I.wants b.1 = .inr key' → a.2 = .ok i → b.2 = .ok j →
        (i = j ↔ I.shared key = true ∧ (key == key') = true) := by
  induction rs generalizing s with
  | nil => exact .nil
  | cons r rs ih =>
    refine .cons (fun b hb key key' i j hr hr' hi hj => ?_) (ih (I.ask r s).2)
    have hstep := h.step s hr
    rw [show I.ask r s = (.ok i, (I.ask r s).2) from Prod.ext hi rfl] at hstep
    exact h.eq_iff_of_holds hstep.holds rs b hb key' j hr' hj

/-! The laws, one by one -/

theorem holder?_after {held : κ} (hheld : I.holder? s i = some held) (rs : List ρ) :
    I.holder? (I.after s rs) i = some held := by
  rw [h.holder?] at hheld ⊢
  obtain ⟨entry, hentry, hor⟩ := Option.bind_eq_some_iff.mp hheld
  exact Option.bind_eq_some_iff.mpr ⟨entry, (h.after_keeps s rs).2 i entry hentry, hor⟩

/-- A key that has a number is answered by it. -/
theorem ask_of_find? {r : ρ} (hr : I.wants r = .inr key) (hshared : I.shared key = true)
    (hfind : (roster s).find? key = some i) : I.ask r s = (.ok i, s) := by
  have hstep := h.step s hr
  generalize I.ask r s = ran at hstep
  cases hstep with
  | known _ hfind' =>
    cases hfind.symm.trans hfind'
    rfl
  | added new => cases new.symm.trans hfind
  | skipped hown => cases hown.symm.trans hshared
  | refused hnone => cases (hnone hshared).symm.trans hfind

theorem consecutive {r : ρ} (hr : I.wants r = .inr key) (hask : I.ask r s = (.ok i, s')) :
    s' = s ∨ i = I.size s ∧ I.size s' = I.size s + 1 := by
  have hstep := h.step s hr
  rw [hask] at hstep
  rw [h.size, h.size]
  generalize hran : ((.ok i, s') : Except Fault Nat × σ) = ran at hstep
  cases hstep with
  | known =>
    cases hran
    exact .inl rfl
  | added new _ _ hroster =>
    cases hran
    exact .inr ⟨rfl, by rw [hroster, Roster.size_add]⟩
  | skipped _ _ hroster =>
    cases hran
    exact .inr ⟨rfl, by rw [hroster, Roster.size_skip]⟩
  | refused => cases hran

/-- Every number below the size is shown with a key, if only numbers with keys have been handed
out where there is nothing to show for the others. -/
theorem bounded (hkeys : blank = none → ∀ i, (roster s).holder? i ≠ some none) (i : Nat) :
    (I.holder? s i).isSome = true ↔ i < I.size s := by
  rw [h.holder?, h.size, ← Nat.not_le, ← Roster.holder?_eq_none_iff]
  cases hentry : (roster s).holder? i with
  | none => simp
  | some entry =>
    cases entry with
    | some key => simp
    | none =>
      cases blank with
      | some b => simp
      | none => exact absurd hentry (hkeys rfl i)

theorem refused_iff (s : σ) (r : ρ) : (∃ e, (I.ask r s).1 = .error e) ↔ ∃ key,
    I.wants r = .inr key ∧ (I.shared key = true → ∀ i held, I.holder? s i = some held →
      (held == key) = false) ∧ I.Full s := by
  cases hr : I.wants r with
  | inl i =>
    rw [h.direct s hr]
    exact ⟨fun ⟨_, he⟩ => (nomatch he), fun ⟨_, hkey, _⟩ => (nomatch hkey)⟩
  | inr key =>
    have hstep := h.step s hr
    generalize I.ask r s = ran at hstep
    have hnone : I.shared key = true → ((roster s).find? key = none ↔ _) := h.find?_eq_none
    cases hstep with
    | known hshared hfind =>
      refine ⟨fun ⟨_, he⟩ => (nomatch he), fun ⟨_, hkey, hnew, _⟩ => ?_⟩
      cases hkey
      cases ((hnone hshared).mpr (hnew hshared)).symm.trans hfind
    | added _ _ hroom =>
      exact ⟨fun ⟨_, he⟩ => (nomatch he), fun ⟨_, _, _, hfull⟩ => absurd hfull hroom⟩
    | skipped _ hroom =>
      exact ⟨fun ⟨_, he⟩ => (nomatch he), fun ⟨_, _, _, hfull⟩ => absurd hfull hroom⟩
    | refused hnew hfull =>
      exact ⟨fun _ => ⟨key, rfl, fun hshared => (hnone hshared).mp (hnew hshared), hfull⟩,
        fun _ => ⟨_, rfl⟩⟩

theorem unchanged {r : ρ} {e : Fault} (hask : I.ask r s = (.error e, s')) :
    s' = s ∧ e = .tableFull I.kind (I.size s) := by
  cases hr : I.wants r with
  | inl i =>
    rw [h.direct s hr] at hask
    cases hask
  | inr key =>
    have hstep := h.step s hr
    rw [hask] at hstep
    rw [h.size]
    cases hstep
    exact ⟨rfl, rfl⟩

theorem found (s : σ) (name : String) (i : Nat) :
    I.find? s name = some i ↔ I.holder? s i = some (I.named name) := by
  rw [h.find?]
  constructor
  · intro hfind
    obtain ⟨held, hentry, hkey⟩ := Roster.find?_eq_some_iff.mp hfind
    rw [h.holder?, hentry, h.eq_named hkey]
    rfl
  · exact fun hheld => h.find?_of_shown hheld (h.shared_named name) (BEq.refl _)

/-- A table that keeps a roster hands out numbers lawfully. -/
theorem lawful {start : σ} (hkeys : blank = none → ∀ i, (roster start).holder? i ≠ some none) :
    I.Lawful start where
  direct past _ _ hr := h.direct _ hr
  given past r key i s hr hask := by
    have hstep := h.step (I.after start past) hr
    rw [hask] at hstep
    exact h.shown hstep.holds
  kept past future i held hheld := by
    have hheld' := h.holder?_after hheld future
    rw [← after_append] at hheld'
    refine ⟨hheld', fun hshared r key hr hkey => ?_⟩
    exact h.ask_of_find? hr ((h.shared_congr hkey).symm.trans hshared)
      (h.find?_of_shown hheld' hshared hkey)
  distinct := h.distinct start
  consecutive past _ _ _ _ := h.consecutive
  bounded past := by
    refine h.bounded fun hblank => ?_
    have hshared : ∀ key, I.shared key = true := fun key => (Bool.not_eq_false _).mp fun hown => by
      obtain ⟨b, hb, -⟩ := h.blank_of_not_shared hown
      cases hblank.symm.trans hb
    exact h.after_keyed hshared start past (hkeys hblank)
  refused past r := by
    rw [h.refused_iff, Full, (h.after_keeps start past).1]
  unchanged past _ _ _ := h.unchanged
  found past := h.found _

end Keeps

end Interner

/-! ## Both tables keep a roster -/

theorem DimTable.full_iff {t : DimTable} : interner.Full t ↔ t.isFull = true := by
  rw [isFull, Option.any_eq_true]
  exact exists_congr fun limit => and_congr_right' decide_eq_true_iff.symm

theorem DimTable.fresh_cases (t : DimTable) :
    (t.isFull = false ∧ fresh t = (.ok t.size, { t with roster := t.roster.skip })) ∨
    (t.isFull = true ∧ fresh t = (.error (.tableFull .dimension t.size), t)) := by
  unfold fresh
  cases hfull : t.isFull with
  | false => exact .inl ⟨rfl, by simp⟩
  | true => exact .inr ⟨rfl, by simp⟩

theorem DimTable.step_internKey (t : DimTable) {key : DimKey} (hkey : shared key = true) :
    interner.Step (·.roster) t key (internKey key t) := by
  rcases internKey_cases key t with ⟨d, hd, h⟩ | ⟨new, hroom, h⟩ | ⟨hnone, hfull, h⟩ <;> rw [h]
  · exact .known hkey hd
  · exact .added new hkey (by rw [full_iff, hroom]; exact Bool.false_ne_true) rfl rfl
  · exact .refused (fun _ => hnone) (full_iff.mpr hfull)

theorem DimTable.keeps_roster :
    interner.Keeps (·.roster : DimTable → Roster DimKey) (some .anonymous) where
  direct t r d hr := by
    match r, hr with
    | .value (.dim _), rfl => rfl
    | .name _, hr | .own, hr => cases hr
  step t r key hr := by
    match r, hr with
    | .name n, rfl => exact step_internKey t rfl
    | .value v, hr =>
      show interner.Step _ t key (internValue v t)
      rw [internValue_eq]
      cases v <;> cases hr <;> exact step_internKey t rfl
    | .own, rfl =>
      show interner.Step _ t .anonymous (fresh t)
      rcases fresh_cases t with ⟨hroom, h⟩ | ⟨hfull, h⟩ <;> rw [h]
      · exact .skipped rfl (by rw [full_iff, hroom]; exact Bool.false_ne_true) rfl rfl
      · exact .refused nofun (full_iff.mpr hfull)
  size _ := rfl
  holder? t i := by
    show (t.roster.holder? i).map (·.getD .anonymous) = _
    cases t.roster.holder? i with
    | none => rfl
    | some entry => cases entry <;> rfl
  find? _ _ := rfl
  shared_named _ := rfl
  eq_named {key name} h := by
    cases key with
    | named n => rw [show n = name from eq_of_beq h]; rfl
    | value _ => cases h
    | anonymous => cases h
  shared_congr {key key'} h := by
    cases key <;> cases key' <;> first | rfl | cases h
  shared_blank b hb := by
    cases hb
    rfl
  blank_of_not_shared {key} h := by
    cases key with
    | anonymous => exact ⟨.anonymous, rfl, rfl⟩
    | named _ => cases h
    | value _ => cases h

namespace TypeTable

theorem full_iff {t : TypeTable} : interner.Full t ↔ ¬ t.size < capacity := by
  refine ⟨fun ⟨limit, hlimit, hle⟩ => ?_, fun h => ⟨capacity, rfl, Nat.le_of_not_lt h⟩⟩
  cases hlimit
  exact Nat.not_lt_of_le hle

theorem step_register (t : TypeTable) (name : String) :
    interner.Step (·.roster) t name (register name t) := by
  unfold register
  split
  · exact .known rfl ‹_›
  · rename_i new
    dsimp only
    split
    · exact .added new rfl (fun hfull => full_iff.mp hfull ‹_›) rfl rfl
    · exact .refused (fun _ => new) (full_iff.mpr ‹_›)

theorem keeps_roster : interner.Keeps (·.roster : TypeTable → Roster String) none where
  direct _ _ _ hr := nomatch hr
  step t name key hr := by
    cases hr
    exact step_register t name
  size _ := rfl
  holder? t i := by
    show (t.roster.holder? i).join = _
    cases t.roster.holder? i with
    | none => rfl
    | some entry => cases entry <;> rfl
  find? _ _ := rfl
  shared_named _ := rfl
  eq_named h := eq_of_beq h
  shared_congr _ := rfl
  shared_blank _ hb := nomatch hb
  blank_of_not_shared h := nomatch h

end TypeTable

/-- A roster that is made of keys has handed out every number to one. -/
theorem Roster.holder?_ofList {κ : Type} [BEq κ] [Digest κ] [EquivBEq κ] [LawfulDigest κ]
    (keys : List κ) (i : Nat) : (Roster.ofList keys).holder? i ≠ some none := by
  have hfold : ∀ r : Roster κ, (∀ i, r.holder? i ≠ some none) →
      ∀ i, (keys.foldl Roster.extend r).holder? i ≠ some none := by
    induction keys with
    | nil => exact fun r hr => hr
    | cons key keys ih =>
      refine fun r hr => ih (r.extend key) fun i => ?_
      unfold Roster.extend
      split
      · exact hr i
      · rw [Roster.holder?_add]
        split
        · exact nofun
        · exact hr i
  exact hfold .empty (fun _ => nofun) i

/-- Dimensions, with any limit, and types are numbered lawfully. -/
theorem tables_number_lawfully (limit : Option Nat) :
    DimTable.interner.Lawful (.initial limit) ∧ TypeTable.interner.Lawful .initial :=
  ⟨DimTable.keeps_roster.lawful nofun,
    TypeTable.keeps_roster.lawful fun _ => Roster.holder?_ofList TypeIndex.builtinNames⟩

/-- The last free number goes to a name. A request for a dimension of one's own then fails, and
names that have a number still get it. -/
example : (DimTable.interner.transcript (.initial (some 8))
    [.name "a", .own, .name "time", .name "a"]).map (·.2) =
      [.ok 7, .error (.tableFull .dimension 8), .ok 5, .ok 7] := rfl

end Intensional
