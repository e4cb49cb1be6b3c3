import MonitorElision.Decimal.General
import MonitorElision.Text.Terminated

/-!
# Scalars

How single values are printed. An address is hexadecimal, but the null address is a plain zero.
-/
namespace MonitorElision.Text

inductive Scalar where
  | char (c : Char)
  | text (s : String)
  | terminated (s : String)
  | integer (z : Int)
  | bool (b : Bool)
  | address (n : Nat)
  | real (x : Float)

/-- Six significant digits, positional from `0.0001` up to a million. -/
def realNotation : Decimal.General := ⟨6, -4⟩

def Scalar.print : Scalar → String
  | char c => c.toString
  | text s => s
  | terminated s => beforeNul s
  | integer z => toString z
  | bool b => toString b
  | address n => if n = 0 then "0" else "0x" ++ String.ofList (Nat.toDigits 16 n)
  | real x => realNotation.binary64 x.toBits

end MonitorElision.Text
