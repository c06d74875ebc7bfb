/-
# Rates of change of vectors and matrices

A curve of vectors or matrices has a rate when each of its coordinates has a derivative. The
rules are those for numbers, with factors left in their order: an entry of a product is a sum
of three products, and its derivative falls into the entries of the two products of the rule
(`hasDerivAt_three_products`). A curve has one rate at most, so an equation between curves
near a point is an equation between their rates.

Spatial vectors and matrices on them change part by part and block by block.

Key definitions: `Vec3.HasRate`, `Mat3.HasRate`, `Homogeneous.HasRate`, `Spatial.HasRate`,
`SpatialMat.HasRate`.
Key theorems: `Mat3.HasRate.mul`, `Mat3.HasRate.apply`, `Vec3.HasRate.unique`, `Mat3.HasRate.unique`,
`SpatialMat.HasRate.apply`.
-/
import Kinodynamics.Proofs.Algebra.Spatial
import Kinodynamics.Algebra.Homogeneous

namespace Kinodynamics

open Filter Topology

variable {s : ℝ}

theorem hasDerivAt_three_products {a b c a' b' c' : ℝ} {f g h f' g' h' : ℝ → ℝ}
    (hf : HasDerivAt f a s) (hf' : HasDerivAt f' a' s) (hg : HasDerivAt g b s)
    (hg' : HasDerivAt g' b' s) (hh : HasDerivAt h c s) (hh' : HasDerivAt h' c' s) :
    HasDerivAt (fun t => f t * f' t + g t * g' t + h t * h' t)
      ((a * f' s + b * g' s + c * h' s) + (f s * a' + g s * b' + h s * c')) s :=
  (((hf.mul hf').add (hg.mul hg')).add (hh.mul hh')).congr_deriv (by ring)

/-! ### Vectors -/

/-- The coordinates of the curve have those of `rate` as derivatives. -/
structure Vec3.HasRate (f : ℝ → Vec3 ℝ) (rate : Vec3 ℝ) (s : ℝ) : Prop where
  x : HasDerivAt (fun t => (f t).x) rate.x s
  y : HasDerivAt (fun t => (f t).y) rate.y s
  z : HasDerivAt (fun t => (f t).z) rate.z s

namespace Vec3.HasRate

/-- A curve has one rate at most. -/
theorem unique {f : ℝ → Vec3 ℝ} {a b : Vec3 ℝ} (ha : HasRate f a s) (hb : HasRate f b s) : a = b :=
  Vec3.ext (ha.x.unique hb.x) (ha.y.unique hb.y) (ha.z.unique hb.z)

/-- A curve along a line. -/
theorem line (u v : Vec3 ℝ) (s : ℝ) : HasRate (fun t => u + v.scale t) v s where
  x := (hasDerivAt_const_mul v.x).const_add u.x
  y := (hasDerivAt_const_mul v.y).const_add u.y
  z := (hasDerivAt_const_mul v.z).const_add u.z

theorem const (u : Vec3 ℝ) : HasRate (fun _ => u) 0 s where
  x := hasDerivAt_const s u.x
  y := hasDerivAt_const s u.y
  z := hasDerivAt_const s u.z

variable {f g : ℝ → Vec3 ℝ} {a b : Vec3 ℝ}

theorem add (ha : HasRate f a s) (hb : HasRate g b s) : HasRate (fun t => f t + g t) (a + b) s where
  x := ha.x.add hb.x
  y := ha.y.add hb.y
  z := ha.z.add hb.z

theorem neg (ha : HasRate f a s) : HasRate (fun t => -f t) (-a) s where
  x := ha.x.neg
  y := ha.y.neg
  z := ha.z.neg

/-- Both the vector and the factor change. -/
theorem scale {c : ℝ → ℝ} {c' : ℝ} (ha : HasRate f a s) (hc : HasDerivAt c c' s) :
    HasRate (fun t => (f t).scale (c t)) (a.scale (c s) + (f s).scale c') s where
  x := ha.x.mul hc
  y := ha.y.mul hc
  z := ha.z.mul hc

/-- Curves that agree near a point have the same rate there. -/
theorem congr (ha : HasRate f a s) (h : g =ᶠ[𝓝 s] f) : HasRate g a s where
  x := ha.x.congr_of_eventuallyEq (h.fun_comp (·.x))
  y := ha.y.congr_of_eventuallyEq (h.fun_comp (·.y))
  z := ha.z.congr_of_eventuallyEq (h.fun_comp (·.z))

end Vec3.HasRate

/-! ### Matrices -/

/-- The entries of the curve have those of `rate` as derivatives. -/
structure Mat3.HasRate (f : ℝ → Mat3 ℝ) (rate : Mat3 ℝ) (s : ℝ) : Prop where
  m00 : HasDerivAt (fun t => (f t).m00) rate.m00 s
  m01 : HasDerivAt (fun t => (f t).m01) rate.m01 s
  m02 : HasDerivAt (fun t => (f t).m02) rate.m02 s
  m10 : HasDerivAt (fun t => (f t).m10) rate.m10 s
  m11 : HasDerivAt (fun t => (f t).m11) rate.m11 s
  m12 : HasDerivAt (fun t => (f t).m12) rate.m12 s
  m20 : HasDerivAt (fun t => (f t).m20) rate.m20 s
  m21 : HasDerivAt (fun t => (f t).m21) rate.m21 s
  m22 : HasDerivAt (fun t => (f t).m22) rate.m22 s

theorem Vec3.HasRate.skew {f : ℝ → Vec3 ℝ} {a : Vec3 ℝ} (h : HasRate f a s) :
    Mat3.HasRate (fun t => (f t).skew) a.skew s where
  m00 := hasDerivAt_const s 0
  m01 := h.z.neg
  m02 := h.y
  m10 := h.z
  m11 := hasDerivAt_const s 0
  m12 := h.x.neg
  m20 := h.y.neg
  m21 := h.x
  m22 := hasDerivAt_const s 0

namespace Mat3.HasRate

variable {f g : ℝ → Mat3 ℝ} {a b : Mat3 ℝ}

/-- A curve has one rate at most. -/
theorem unique (ha : HasRate f a s) (hb : HasRate f b s) : a = b :=
  Mat3.ext (ha.m00.unique hb.m00) (ha.m01.unique hb.m01) (ha.m02.unique hb.m02)
    (ha.m10.unique hb.m10) (ha.m11.unique hb.m11) (ha.m12.unique hb.m12)
    (ha.m20.unique hb.m20) (ha.m21.unique hb.m21) (ha.m22.unique hb.m22)

/-- Curves that agree near a point have the same rate there. -/
theorem congr (ha : HasRate f a s) (h : g =ᶠ[𝓝 s] f) : HasRate g a s where
  m00 := ha.m00.congr_of_eventuallyEq (h.fun_comp (·.m00))
  m01 := ha.m01.congr_of_eventuallyEq (h.fun_comp (·.m01))
  m02 := ha.m02.congr_of_eventuallyEq (h.fun_comp (·.m02))
  m10 := ha.m10.congr_of_eventuallyEq (h.fun_comp (·.m10))
  m11 := ha.m11.congr_of_eventuallyEq (h.fun_comp (·.m11))
  m12 := ha.m12.congr_of_eventuallyEq (h.fun_comp (·.m12))
  m20 := ha.m20.congr_of_eventuallyEq (h.fun_comp (·.m20))
  m21 := ha.m21.congr_of_eventuallyEq (h.fun_comp (·.m21))
  m22 := ha.m22.congr_of_eventuallyEq (h.fun_comp (·.m22))

theorem const (a : Mat3 ℝ) : HasRate (fun _ => a) 0 s where
  m00 := hasDerivAt_const s a.m00
  m01 := hasDerivAt_const s a.m01
  m02 := hasDerivAt_const s a.m02
  m10 := hasDerivAt_const s a.m10
  m11 := hasDerivAt_const s a.m11
  m12 := hasDerivAt_const s a.m12
  m20 := hasDerivAt_const s a.m20
  m21 := hasDerivAt_const s a.m21
  m22 := hasDerivAt_const s a.m22

theorem add (ha : HasRate f a s) (hb : HasRate g b s) : HasRate (fun t => f t + g t) (a + b) s where
  m00 := ha.m00.add hb.m00
  m01 := ha.m01.add hb.m01
  m02 := ha.m02.add hb.m02
  m10 := ha.m10.add hb.m10
  m11 := ha.m11.add hb.m11
  m12 := ha.m12.add hb.m12
  m20 := ha.m20.add hb.m20
  m21 := ha.m21.add hb.m21
  m22 := ha.m22.add hb.m22

/-- Both the matrix and the factor change. -/
theorem scale {c : ℝ → ℝ} {c' : ℝ} (ha : HasRate f a s) (hc : HasDerivAt c c' s) :
    HasRate (fun t => (f t).scale (c t)) (a.scale (c s) + (f s).scale c') s where
  m00 := ha.m00.mul hc
  m01 := ha.m01.mul hc
  m02 := ha.m02.mul hc
  m10 := ha.m10.mul hc
  m11 := ha.m11.mul hc
  m12 := ha.m12.mul hc
  m20 := ha.m20.mul hc
  m21 := ha.m21.mul hc
  m22 := ha.m22.mul hc

/-- **The rate of a product.** -/
theorem mul (ha : HasRate f a s) (hb : HasRate g b s) :
    HasRate (fun t => f t * g t) (a * g s + f s * b) s where
  m00 := hasDerivAt_three_products ha.m00 hb.m00 ha.m01 hb.m10 ha.m02 hb.m20
  m01 := hasDerivAt_three_products ha.m00 hb.m01 ha.m01 hb.m11 ha.m02 hb.m21
  m02 := hasDerivAt_three_products ha.m00 hb.m02 ha.m01 hb.m12 ha.m02 hb.m22
  m10 := hasDerivAt_three_products ha.m10 hb.m00 ha.m11 hb.m10 ha.m12 hb.m20
  m11 := hasDerivAt_three_products ha.m10 hb.m01 ha.m11 hb.m11 ha.m12 hb.m21
  m12 := hasDerivAt_three_products ha.m10 hb.m02 ha.m11 hb.m12 ha.m12 hb.m22
  m20 := hasDerivAt_three_products ha.m20 hb.m00 ha.m21 hb.m10 ha.m22 hb.m20
  m21 := hasDerivAt_three_products ha.m20 hb.m01 ha.m21 hb.m11 ha.m22 hb.m21
  m22 := hasDerivAt_three_products ha.m20 hb.m02 ha.m21 hb.m12 ha.m22 hb.m22

theorem transpose (ha : HasRate f a s) : HasRate (fun t => (f t).transpose) a.transpose s where
  m00 := ha.m00
  m01 := ha.m10
  m02 := ha.m20
  m10 := ha.m01
  m11 := ha.m11
  m12 := ha.m21
  m20 := ha.m02
  m21 := ha.m12
  m22 := ha.m22

/-- **The rate of the product with a vector.** -/
theorem apply {u : ℝ → Vec3 ℝ} {u' : Vec3 ℝ} (ha : HasRate f a s) (hu : Vec3.HasRate u u' s) :
    Vec3.HasRate (fun t => (f t).apply (u t)) (a.apply (u s) + (f s).apply u') s where
  x := hasDerivAt_three_products ha.m00 hu.x ha.m01 hu.y ha.m02 hu.z
  y := hasDerivAt_three_products ha.m10 hu.x ha.m11 hu.y ha.m12 hu.z
  z := hasDerivAt_three_products ha.m20 hu.x ha.m21 hu.y ha.m22 hu.z

/-- The vector does not change. -/
theorem apply_const (ha : HasRate f a s) (v : Vec3 ℝ) :
    Vec3.HasRate (fun t => (f t).apply v) (a.apply v) s := by
  have hrate := ha.apply (Vec3.HasRate.const v)
  rwa [Mat3.apply_zero, add_zero] at hrate

end Mat3.HasRate

/-! ### Homogeneous matrices -/

/-- The parts of the curve have those of `rate` as rates. -/
structure Homogeneous.HasRate (f : ℝ → Homogeneous ℝ) (rate : Homogeneous ℝ) (s : ℝ) : Prop where
  block : Mat3.HasRate (fun t => (f t).block) rate.block s
  column : Vec3.HasRate (fun t => (f t).column) rate.column s
  corner : HasDerivAt (fun t => (f t).corner) rate.corner s

/-! ### Spatial vectors and matrices -/

/-- The parts of the curve have those of `rate` as rates. -/
structure Spatial.HasRate (f : ℝ → Spatial ℝ) (rate : Spatial ℝ) (s : ℝ) : Prop where
  angular : Vec3.HasRate (fun t => (f t).angular) rate.angular s
  linear : Vec3.HasRate (fun t => (f t).linear) rate.linear s

namespace Spatial.HasRate

variable {f g : ℝ → Spatial ℝ} {a b : Spatial ℝ}

theorem const (u : Spatial ℝ) : HasRate (fun _ => u) 0 s := ⟨.const u.angular, .const u.linear⟩

theorem add (ha : HasRate f a s) (hb : HasRate g b s) : HasRate (fun t => f t + g t) (a + b) s :=
  ⟨ha.angular.add hb.angular, ha.linear.add hb.linear⟩

theorem neg (ha : HasRate f a s) : HasRate (fun t => -f t) (-a) s := ⟨ha.angular.neg, ha.linear.neg⟩

theorem add_const (ha : HasRate f a s) (u : Spatial ℝ) : HasRate (fun t => f t + u) a s := by
  have hrate := ha.add (const u)
  rwa [add_zero] at hrate

theorem const_add (ha : HasRate f a s) (u : Spatial ℝ) : HasRate (fun t => u + f t) a s := by
  simpa only [add_comm u] using ha.add_const u

theorem const_sub (ha : HasRate f a s) (u : Spatial ℝ) : HasRate (fun t => u - f t) (-a) s := by
  simpa only [sub_eq_add_neg] using ha.neg.const_add u

/-- The coordinates have derivatives. -/
theorem toList (ha : HasRate f a s) {i : ℕ} (hi : i < 6) :
    HasDerivAt (fun t => (f t).toList.getD i 0) (a.toList.getD i 0) s := by
  interval_cases i
  · exact ha.angular.x
  · exact ha.angular.y
  · exact ha.angular.z
  · exact ha.linear.x
  · exact ha.linear.y
  · exact ha.linear.z

end Spatial.HasRate

/-- The blocks of the curve have those of `rate` as rates. -/
structure SpatialMat.HasRate (f : ℝ → SpatialMat ℝ) (rate : SpatialMat ℝ) (s : ℝ) : Prop where
  aa : Mat3.HasRate (fun t => (f t).aa) rate.aa s
  al : Mat3.HasRate (fun t => (f t).al) rate.al s
  la : Mat3.HasRate (fun t => (f t).la) rate.la s
  ll : Mat3.HasRate (fun t => (f t).ll) rate.ll s

namespace SpatialMat.HasRate

variable {f : ℝ → SpatialMat ℝ} {a : SpatialMat ℝ}

theorem lower {d c : ℝ → Mat3 ℝ} {d' c' : Mat3 ℝ} (hd : Mat3.HasRate d d' s) (hc : Mat3.HasRate c c' s) :
    HasRate (fun t => .lower (d t) (c t)) (.lower d' c') s :=
  ⟨hd, .const 0, hc, hd⟩

theorem transpose (ha : HasRate f a s) : HasRate (fun t => (f t).transpose) a.transpose s :=
  ⟨ha.aa.transpose, ha.la.transpose, ha.al.transpose, ha.ll.transpose⟩

/-- **The rate of the product with a vector** that does not change. -/
theorem apply (ha : HasRate f a s) (v : Spatial ℝ) :
    Spatial.HasRate (fun t => (f t).apply v) (a.apply v) s := by
  simp only [SpatialMat.apply_eq]
  exact ⟨(ha.aa.apply_const v.angular).add (ha.al.apply_const v.linear),
    (ha.la.apply_const v.angular).add (ha.ll.apply_const v.linear)⟩

end SpatialMat.HasRate

end Kinodynamics
