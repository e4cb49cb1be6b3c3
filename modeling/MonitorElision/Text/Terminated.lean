/-!
# Terminated text

Text that ends at its first NUL character, if it has one.
-/
namespace MonitorElision.Text

def beforeNul (s : String) : String := String.ofList (s.toList.takeWhile (· ≠ '\x00'))

end MonitorElision.Text
