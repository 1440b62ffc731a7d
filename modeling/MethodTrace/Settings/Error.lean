import MethodTrace.FileFault
import MethodTrace.Settings.Basic
import MethodTrace.Text.Quoted

/-!
# Why settings are refused

The file, the JSON text, a value of the wrong type, or the settings themselves.
-/

namespace MethodTrace.Settings

/-- What stands in a text where something else was wanted. -/
inductive Found where
  | null
  | bool (b : Bool)
  | int (n : Int)
  | float (x : Binary64)
  | string (s : String)
  | sequence
  | map

def Found.text : Found → String
  | null => "null"
  | bool b => s!"boolean `{b}`"
  | int n => s!"integer `{n}`"
  | float x => "floating point `" ++ Decimal.write x ++ "`"
  | string s => "string " ++ Text.quoted s
  | sequence => "sequence"
  | map => "map"

inductive Expected where
  | u32
  | u64
  | boolean
  | settings

def Expected.text : Expected → String
  | u32 => "u32"
  | u64 => "usize"
  | boolean => "a boolean"
  | settings => "struct TracerConfig"

/-- Why a JSON text that is well formed so far is no settings. -/
inductive Rejection where
  | wrongType (found : Found) (expected : Expected)
  | outOfRange (n : Int) (expected : Expected)
  | unknownField (name : String)
  | repeatedField (field : Field)

def inBackticks (s : String) : String := "`" ++ s ++ "`"

def Rejection.message : Rejection → String
  | wrongType f e => "invalid type: " ++ f.text ++ ", expected " ++ e.text
  | outOfRange n e => "invalid value: " ++ (Found.int n).text ++ ", expected " ++ e.text
  | unknownField s =>
    "unknown field " ++ inBackticks s ++ ", expected one of " ++
      String.intercalate ", " (Field.all.map fun f => inBackticks f.name)
  | repeatedField f => "duplicate field " ++ inBackticks f.name

inductive Error where
  | file (fault : FileFault)
  | malformed
  | rejected (reason : Rejection)
  | invalid

def Error.message : Error → String
  | file f => f.message
  | malformed => "malformed JSON"
  | rejected r => r.message
  | invalid => invalidMessage

end MethodTrace.Settings
