/-! # Vectors of reals -/

namespace ReversePolish

/-- A vector of reals. -/
abbrev RealVector (n : Nat) := Vector Float n

namespace RealVector

variable {n : Nat}

/-- The vector of exactly these components. -/
def ofList? (n : Nat) (xs : List Float) : Option (RealVector n) :=
  if h : xs.length = n then some ⟨xs.toArray, by simp [h]⟩ else none

def add (v w : RealVector n) : RealVector n := v.zipWith (· + ·) w

def neg (v : RealVector n) : RealVector n := v.map (- ·)

def scale (v : RealVector n) (k : Float) : RealVector n := v.map (· * k)

def divide (v : RealVector n) (k : Float) : RealVector n := v.map (· / k)

/-- The first vector less a multiple of the second. -/
def subtractMultiple (v : RealVector n) (k : Float) (w : RealVector n) : RealVector n :=
  v.zipWith (fun x y => x - k * y) w

/-- The sum from left to right, whose empty case is `-0`. -/
def sum (v : RealVector n) : Float := v.toList.foldl (· + ·) (-0.0)

def dot (v w : RealVector n) : Float := sum (v.zipWith (· * ·) w)

def norm (v : RealVector n) : Float := (dot v v).sqrt

/-- The vector over its length, unless that length comes out as zero. -/
def normalized? (v : RealVector n) : Option (RealVector n) :=
  let length := norm v
  if length == 0 then none else some (scale v (1 / length))

def cross (v w : RealVector 3) : RealVector 3 :=
  #v[v[1] * w[2] - v[2] * w[1], v[2] * w[0] - v[0] * w[2], v[0] * w[1] - v[1] * w[0]]

end RealVector

end ReversePolish
