/-
# Linear equations

A linear equation says `Σ Aₖ xₖ = b` about vector variables named by keys, with a
noise model for its rows. An equation cannot be made with blocks of another height
than its right-hand side, with a noise model for another number of rows, or with
a key in two blocks. A system is a list of equations.

Key definitions: `LinearEquation`, `LinearEquation.make`, `LinearEquation.residual`,
`LinearEquation.weighted`, `LinearSystem`, `LinearSystem.keys`, `LinearSystem.error`,
`EliminationError`.
Key theorems: `LinearEquation.firstMismatch_eq_none`.
-/
import Kinodynamics.Assignment
import Kinodynamics.Failure
import Kinodynamics.Noise

namespace Kinodynamics

/-- Sizes or keys that disagree. -/
inductive Mismatch (κ : Type) where
  /-- A noise model for another number of rows than the right-hand side has. -/
  | noise (dim rows : Nat)
  /-- A block of another height than the right-hand side. -/
  | height (key : κ) (rows expected : Nat)
  /-- A variable with two blocks in one equation. -/
  | repeated (key : κ)
  /-- A variable with blocks of two widths. -/
  | width (key : κ) (first other : Nat)
  /-- A value of another size than the width of its block. -/
  | value (key : κ) (entries expected : Nat)

/-- Why a linear system cannot be set up, eliminated or evaluated. -/
inductive EliminationError (κ : Type) where
  /-- No equation, or too few rows, to fix the variable. -/
  | underDetermined (key : κ)
  /-- A pivot of the variable is zero. -/
  | singular (key : κ)
  /-- Sizes disagree. -/
  | mismatch (cause : Mismatch κ)
  /-- Equations are left on a variable that the ordering does not name. -/
  | notInOrdering (key : κ)
  /-- A value is needed and not given. -/
  | missingSolution (key : κ)

/-- What the mismatch is called, with keys spelled by `text`. -/
def Mismatch.message {κ : Type} (text : κ → String) : Mismatch κ → String
  | noise dim rows => s!"noise model has dimension {dim}, right-hand side has {rows} rows"
  | height key rows expected =>
    "block for " ++ text key ++ s!" has {rows} rows, right-hand side has {expected}"
  | repeated key => "variable " ++ text key ++ " appears twice in one relation"
  | width key first other =>
    "variable " ++ text key ++ s!" has blocks with {first} and {other} columns"
  | value key entries expected =>
    "solution for " ++ text key ++ s!" has {entries} entries, block expects {expected}"

/-- The kind of the error. -/
def EliminationError.kind {κ : Type} : EliminationError κ → String
  | underDetermined _ => "UnderDetermined"
  | singular _ => "Singular"
  | mismatch _ => "DimensionMismatch"
  | notInOrdering _ => "NotInOrdering"
  | missingSolution _ => "MissingSolution"

/-- What the error is called, with keys spelled by `text`. -/
def EliminationError.message {κ : Type} (text : κ → String) : EliminationError κ → String
  | underDetermined key => "Variable " ++ text key ++ " is under-determined"
  | singular key => "Variable " ++ text key ++ " has a singular conditional"
  | mismatch cause => "Dimension mismatch: " ++ cause.message text
  | notInOrdering key => "Variable " ++ text key ++ " is not in the elimination ordering"
  | missingSolution key => "No solution value for variable " ++ text key

/-- A value for each variable. -/
abbrev Solution (κ α : Type) := Assignment κ (List α)

/-- One equation `Σ Aₖ xₖ = b`. -/
structure LinearEquation (κ α : Type) where
  blocks : List (κ × Dense α)
  rhs : List α
  noise : Noise α
  noise_dim : noise.dim = rhs.length
  block_nrows : ∀ b ∈ blocks, b.2.nrows = rhs.length
  keys_nodup : (blocks.map Prod.fst).Nodup

namespace LinearEquation

variable {κ α : Type}

/-! ### Making an equation -/

/-- The first block, in order, of a wrong height or with a key that is among
`seen` or in an earlier block. -/
def firstMismatch [DecidableEq κ] (rows : Nat) : List κ → List (κ × Dense α) → Option (Mismatch κ)
  | _, [] => none
  | seen, (key, block) :: rest =>
    if block.nrows ≠ rows then some (.height key block.nrows rows)
    else if key ∈ seen then some (.repeated key)
    else firstMismatch rows (key :: seen) rest

theorem firstMismatch_eq_none [DecidableEq κ] {rows : Nat} {blocks : List (κ × Dense α)} :
    ∀ {seen : List κ}, firstMismatch rows seen blocks = none ↔
      (∀ b ∈ blocks, b.2.nrows = rows) ∧ (blocks.map Prod.fst).Nodup ∧
        ∀ k ∈ seen, k ∉ blocks.map Prod.fst := by
  induction blocks with
  | nil => simp [firstMismatch]
  | cons b blocks ih =>
    intro seen
    obtain ⟨key, block⟩ := b
    unfold firstMismatch
    by_cases hr : block.nrows = rows
    · by_cases hk : key ∈ seen
      · simp only [hr, hk, ne_eq, not_true_eq_false, if_false, if_true]
        constructor
        · simp
        · rintro ⟨-, -, h⟩
          exact absurd (by simp) (h key hk)
      · simp only [hr, hk, ne_eq, not_true_eq_false, if_false, ih, List.mem_cons, List.map_cons,
          List.nodup_cons, forall_eq_or_imp]
        constructor
        · rintro ⟨h1, h2, h3, h4⟩
          refine ⟨⟨trivial, h1⟩, ⟨h3, h2⟩, fun k hks hm => ?_⟩
          rcases hm with rfl | hm
          · exact hk hks
          · exact h4 k hks hm
        · rintro ⟨⟨-, h1⟩, ⟨h2, h3⟩, h4⟩
          exact ⟨h1, h3, h2, fun k hks hm => h4 k hks (Or.inr hm)⟩
    · simp only [hr, ne_eq, not_false_eq_true, if_true, List.mem_cons, forall_eq_or_imp]
      simp

/-- The equation with the given blocks, right-hand side and noise, or the first
mismatch: the noise model is compared before the blocks. -/
def make [DecidableEq κ] (blocks : List (κ × Dense α)) (rhs : List α) (noise : Noise α) :
    Except (Mismatch κ) (LinearEquation κ α) :=
  if hn : noise.dim = rhs.length then
    match hb : firstMismatch rhs.length [] blocks with
    | some m => .error m
    | none => .ok {
        blocks := blocks
        rhs := rhs
        noise := noise
        noise_dim := hn
        block_nrows := (firstMismatch_eq_none.mp hb).1
        keys_nodup := (firstMismatch_eq_none.mp hb).2.1 }
  else .error (.noise noise.dim rhs.length)

/-! ### Reading an equation -/

/-- The number of rows. -/
def rows (r : LinearEquation κ α) : Nat := r.rhs.length

/-- The keys, in block order. -/
def keys (r : LinearEquation κ α) : List κ := r.blocks.map Prod.fst

/-- The block of a key. -/
def coefficient? [DecidableEq κ] (r : LinearEquation κ α) (key : κ) : Option (Dense α) :=
  (r.blocks.find? fun b => b.1 = key).map Prod.snd

/-- The equation has a block for the key. -/
def mentions [DecidableEq κ] (r : LinearEquation κ α) (key : κ) : Bool :=
  r.blocks.any fun b => b.1 = key

/-- The rows hold exactly. -/
def isHard (r : LinearEquation κ α) : Bool := r.noise.isHard

variable [Scalar α]

/-- The equation with its weights multiplied into its rows. -/
def weighted (r : LinearEquation κ α) : LinearEquation κ α where
  blocks := r.blocks.map fun b => (b.1, r.noise.weighRows b.2)
  rhs := r.noise.weigh r.rhs
  noise := .unit r.rhs.length
  noise_dim := by rw [Noise.length_weigh, r.noise_dim, Nat.min_self]; rfl
  block_nrows := by
    intro b hb
    obtain ⟨c, -, rfl⟩ := List.mem_map.mp hb
    simp [Noise.length_weigh, r.noise_dim]
  keys_nodup := by
    have h : (r.blocks.map fun b => (b.1, r.noise.weighRows b.2)).map Prod.fst =
        r.blocks.map Prod.fst := by
      rw [List.map_map]
      rfl
    rw [h]
    exact r.keys_nodup

variable [DecidableEq κ]

/-- `Σ Aₖ xₖ - b`, blocks added in order. -/
def residual (r : LinearEquation κ α) (x : Solution κ α) :
    Except (EliminationError κ) (List α) :=
  r.blocks.foldlM (fun sum (key, block) =>
    match x.get? key with
    | none => .error (.missingSolution key)
    | some value =>
      if value.length = block.ncols then
        .ok (List.zipWith (· + ·) sum (block.mulVec value))
      else .error (.mismatch (.value key value.length block.ncols)))
    (r.rhs.map (- ·))

/-- Half the squared length of the weighted residual. -/
def error (r : LinearEquation κ α) (x : Solution κ α) : Except (EliminationError κ) α := do
  let residual ← r.residual x
  return 0.5 * Scalar.normSq (r.noise.weigh residual)

end LinearEquation

/-- Linear equations in order. -/
structure LinearSystem (κ α : Type) where
  equations : List (LinearEquation κ α)

namespace LinearSystem

variable {κ α : Type}

/-- The system of no equations. -/
def empty : LinearSystem κ α := ⟨[]⟩

/-- The number of equations. -/
def size (s : LinearSystem κ α) : Nat := s.equations.length

/-- The equations of `s`, then those of `t`. -/
def append (s t : LinearSystem κ α) : LinearSystem κ α := ⟨s.equations ++ t.equations⟩

/-- The keys in order of first appearance. -/
def keys [DecidableEq κ] (s : LinearSystem κ α) : List κ :=
  (s.equations.flatMap LinearEquation.keys).foldl
    (fun keys k => if k ∈ keys then keys else keys ++ [k]) []

/-- The errors of all equations added up. -/
def error [Scalar α] [DecidableEq κ] (s : LinearSystem κ α) (x : Solution κ α) :
    Except (EliminationError κ) α :=
  s.equations.foldlM (fun sum r => do return sum + (← r.error x)) 0

end LinearSystem

end Kinodynamics
