/-
# Spatial vectors

Twists, screw axes, accelerations and wrenches are pairs of an angular and a
linear vector, angular first. Their matrices have four 3 × 3 blocks.

Key definitions: `Spatial`, `SpatialMat`, `Spatial.cross`, `SpatialMat.apply`.
-/
import Kinodynamics.Algebra.Vec3
import Kinodynamics.Dense

namespace Kinodynamics

/-- A spatial vector. -/
@[ext]
structure Spatial (α : Type) where
  angular : Vec3 α
  linear : Vec3 α

/-- A matrix on spatial vectors, by blocks. -/
@[ext]
structure SpatialMat (α : Type) where
  /-- Angular from angular. -/
  aa : Mat3 α
  /-- Angular from linear. -/
  al : Mat3 α
  /-- Linear from angular. -/
  la : Mat3 α
  /-- Linear from linear. -/
  ll : Mat3 α

namespace Spatial

variable {α : Type}

/-- The six coordinates in order. -/
def toList (v : Spatial α) : List α :=
  [v.angular.x, v.angular.y, v.angular.z, v.linear.x, v.linear.y, v.linear.z]

/-- The vector of the first six entries; absent if there are fewer. -/
def ofList? : List α → Option (Spatial α)
  | a :: b :: c :: d :: e :: f :: _ => some ⟨⟨a, b, c⟩, ⟨d, e, f⟩⟩
  | _ => none

@[simp] theorem length_toList (v : Spatial α) : v.toList.length = 6 := rfl

@[simp] theorem ofList?_toList (v : Spatial α) : ofList? v.toList = some v := rfl

theorem ofList?_isSome_iff {xs : List α} : (ofList? xs).isSome ↔ 6 ≤ xs.length := by
  unfold ofList?
  split
  · simp
  · next h =>
    simp only [Option.isSome_none, Bool.false_eq_true, false_iff, Nat.not_le]
    match xs, h with
    | [], _ => simp
    | [_], _ => simp
    | [_, _], _ => simp
    | [_, _, _], _ => simp
    | [_, _, _, _], _ => simp
    | [_, _, _, _, _], _ => simp
    | a :: b :: c :: d :: e :: f :: r, h => exact absurd rfl (h a b c d e f r)

variable [Scalar α]

instance : Zero (Spatial α) := ⟨⟨0, 0⟩⟩

instance : Add (Spatial α) := ⟨fun u v => ⟨u.angular + v.angular, u.linear + v.linear⟩⟩

instance : Sub (Spatial α) := ⟨fun u v => ⟨u.angular - v.angular, u.linear - v.linear⟩⟩

instance : Neg (Spatial α) := ⟨fun u => ⟨-u.angular, -u.linear⟩⟩

/-- Each coordinate times `s`. -/
def scale (u : Spatial α) (s : α) : Spatial α := ⟨u.angular.scale s, u.linear.scale s⟩

/-- Scalar product, the pairing of a wrench with a twist. -/
def dot (u v : Spatial α) : α :=
  u.angular.dot v.angular + u.linear.x * v.linear.x + u.linear.y * v.linear.y
    + u.linear.z * v.linear.z

/-- Length. -/
def norm (u : Spatial α) : α := Scalar.sqrt (u.dot u)

/-- The matrix of the bracket with `v`. -/
def cross (v : Spatial α) : SpatialMat α := ⟨v.angular.skew, 0, v.linear.skew, v.angular.skew⟩

/-- The vector as a matrix of one column. -/
def toColumn (v : Spatial α) : Dense α := Dense.ofFn 6 1 fun i _ => v.toList.getD i 0

/-- The vector as a matrix of one row. -/
def toRow (v : Spatial α) : Dense α := Dense.ofFn 1 6 fun _ j => v.toList.getD j 0

end Spatial

namespace SpatialMat

variable {α : Type} [Scalar α]

instance : One (SpatialMat α) := ⟨⟨1, 0, 0, 1⟩⟩

instance : Add (SpatialMat α) := ⟨fun a b => ⟨a.aa + b.aa, a.al + b.al, a.la + b.la, a.ll + b.ll⟩⟩

instance : Neg (SpatialMat α) := ⟨fun a => ⟨-a.aa, -a.al, -a.la, -a.ll⟩⟩

instance : Mul (SpatialMat α) := ⟨fun a b =>
  ⟨.mulOnto (a.aa * b.aa) a.al b.la, .mulOnto (a.aa * b.al) a.al b.ll,
   .mulOnto (a.la * b.aa) a.ll b.la, .mulOnto (a.la * b.al) a.ll b.ll⟩⟩

/-- The product with a vector. -/
def apply (a : SpatialMat α) (v : Spatial α) : Spatial α :=
  ⟨Mat3.applyOnto (a.aa.apply v.angular) a.al v.linear,
   Mat3.applyOnto (a.la.apply v.angular) a.ll v.linear⟩

/-- Rows and columns exchanged. -/
def transpose (a : SpatialMat α) : SpatialMat α :=
  ⟨a.aa.transpose, a.la.transpose, a.al.transpose, a.ll.transpose⟩

/-- The block on and the block below the diagonal, the former twice. -/
def lower (diagonal coupling : Mat3 α) : SpatialMat α := ⟨diagonal, 0, coupling, diagonal⟩

/-- The six rows in order. -/
def toRows (a : SpatialMat α) : List (List α) :=
  List.zipWith (· ++ ·) a.aa.toRows a.al.toRows ++ List.zipWith (· ++ ·) a.la.toRows a.ll.toRows

/-- The matrix without its blocks. -/
def toDense (a : SpatialMat α) : Dense α := Dense.ofRows 6 a.toRows

end SpatialMat

end Kinodynamics
