/-!
# Listings

The elements of a listing are separated by commas and nothing else.
-/
namespace MonitorElision.Text

def listing (items : List String) : String := ",".intercalate items

def braced (items : List String) : String := "\x7b" ++ listing items ++ "\x7d"

def parenthesized (items : List String) : String := "(" ++ listing items ++ ")"

def quoted (text : String) : String := "\"" ++ text ++ "\""

end MonitorElision.Text
