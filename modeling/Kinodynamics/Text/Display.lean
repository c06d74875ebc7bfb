/-
# Display of rotations and poses

One line for a rotation, a pose or a tangent vector, four places each.

Key definitions: `Rotation.text`, `Pose.text`, `PoseTangent.text`.
-/
import Kinodynamics.Pose
import Kinodynamics.Text.Decimal

namespace Kinodynamics

/-- A number with four places. -/
def placeText (x : Float) : String := Decimal.fixed 4 x

/-- Three numbers in brackets. -/
def Vec3.text (v : Vec3 Float) : String :=
  "[" ++ ", ".intercalate (v.toList.map placeText) ++ "]"

/-- The four parameters with their names, in brackets. -/
def Rotation.parameterText (r : Rotation Float) : String :=
  "[w: " ++ placeText r.w ++ ", x: " ++ placeText r.x ++ ", y: " ++ placeText r.y ++
    ", z: " ++ placeText r.z ++ "]"

def Rotation.text (r : Rotation Float) : String := "SO3(quaternion: " ++ r.parameterText ++ ")"

def Pose.text (p : Pose Float) : String :=
  "SE3(translation: " ++ p.position.text ++ ", rotation: " ++ p.rotation.parameterText ++ ")"

def PoseTangent.text (v : Spatial Float) : String :=
  "se3(angular: " ++ v.angular.text ++ ", linear: " ++ v.linear.text ++ ")"

end Kinodynamics
