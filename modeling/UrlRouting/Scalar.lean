import UrlRouting.Decimal.Layout
import UrlRouting.Decimal.Reading

/-! # Scalar values

Values of the types that a parameter may be given as. A parameter keeps the text of the value. -/

namespace UrlRouting

/-- A value of a scalar type. -/
inductive Scalar where
  | text (value : String)
  | integer (value : Int)
  | boolean (value : Bool)
  | character (value : Char)
  | double (value : Float)
  | single (value : Float32)

namespace Scalar

/-- Numbers in parameters are never written with an exponent, whole ones have no point, and of two
equally near shortest decimals the greater is taken. -/
def layout : Decimal.Layout := ⟨none, "", .greater⟩

/-- The text of a value. -/
def toText : Scalar → String
  | text value => value
  | integer value => toString value
  | boolean value => if value then "true" else "false"
  | character value => String.singleton value
  | double value => layout.writeDouble value
  | single value => layout.writeSingle value

end Scalar

end UrlRouting
