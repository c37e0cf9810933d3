import UrlRouting.Url.Percent

/-! # Path segments

A value as one segment of a URL path, and back. A written segment holds no `/`, `?` or `#`, so it
stays one segment whatever the value is. -/

namespace UrlRouting.Segment

/-- The characters that stand in a segment as they are. -/
def keeps (c : Char) : Bool := c.isAlphanum || "-._~@:;,=+!*|".toList.contains c

/-- A value as a path segment. -/
def encode (value : String) : String := String.ofList (Percent.encode keeps value.toList)

/-- The value of a path segment. -/
def decode (segment : String) : String := String.ofList (Percent.decode segment.toList)

end UrlRouting.Segment
