/-
# Noise settings

The deviations that relations of each family are given. Acceleration relations
and torque priors hold exactly and have no setting.

Key definitions: `NoiseSettings`, `NoiseSettings.text`.
-/
import Kinodynamics.Noise
import Kinodynamics.Text.Decimal

namespace Kinodynamics

/-- One deviation for each family of relations. -/
structure NoiseSettings (α : Type) where
  /-- Loop closure of poses across a joint. -/
  pose : α
  /-- Composition of twists. -/
  twist : α
  /-- Balance of wrenches and the planar restriction. -/
  wrench : α
  /-- Transmission of torque. -/
  torque : α
  /-- Penalties on joint limits. -/
  jointLimit : α

namespace NoiseSettings

variable {α : Type}

/-- A thousandth for physical relations, a hundredth for limits. -/
def standard [Scalar α] : NoiseSettings α where
  pose := 1e-3
  twist := 1e-3
  wrench := 1e-3
  torque := 1e-3
  jointLimit := 1e-2

instance [Scalar α] : Inhabited (NoiseSettings α) := ⟨standard⟩

def poseNoise (s : NoiseSettings α) : Noise α := .isotropic 6 s.pose

def twistNoise (s : NoiseSettings α) : Noise α := .isotropic 6 s.twist

def wrenchNoise (s : NoiseSettings α) (dim : Nat) : Noise α := .isotropic dim s.wrench

def torqueNoise (s : NoiseSettings α) : Noise α := .isotropic 1 s.torque

def jointLimitNoise (s : NoiseSettings α) : Noise α := .isotropic 1 s.jointLimit

/-- The settings as a list, in the order of the families. -/
def toList (s : NoiseSettings α) : List α := [s.pose, s.twist, s.wrench, s.torque, s.jointLimit]

/-- A heading and one line for each family, four significant digits each. -/
def text (s : NoiseSettings Float) : String :=
  "Relation noise sigmas:\n" ++
  "  pose:        " ++ Decimal.scientific 3 s.pose ++ "\n" ++
  "  twist:       " ++ Decimal.scientific 3 s.twist ++ "\n" ++
  "  wrench:      " ++ Decimal.scientific 3 s.wrench ++ "\n" ++
  "  torque:      " ++ Decimal.scientific 3 s.torque ++ "\n" ++
  "  joint limit: " ++ Decimal.scientific 3 s.jointLimit

end NoiseSettings

end Kinodynamics
