import ClassAtlas.Descriptor.Fault
import ClassAtlas.Text.Hex

/-!
# Errors of decoding

Why a class file cannot be decoded, or its references cannot be extracted. Each cause is a
constructor; `DecodeError.message` has the wording.
-/

namespace ClassAtlas

/-- The oldest supported major version of the format. -/
def minMajorVersion : Nat := 45

/-- The newest supported major version of the format. -/
def maxMajorVersion : Nat := 69

/-- The deepest nesting of the element values of an annotation. -/
def maxElementDepth : Nat := 64

/-- The word that opens every class file. -/
def classFileMagic : UInt32 := 0xCAFEBABE

/-- A violation of the class file format. -/
inductive FormatFault where
  | missingMagic
  | badMagic (found : UInt32)
  | unsupportedVersion (major minor : UInt16)
  | emptyPool
  | wideEntryAtEnd (index : Nat)
  | invalidText (index offset : Nat)
  | unknownPoolTag (tag : UInt8) (index offset : Nat)
  | attributeTooLong (name : String) (length : UInt32) (left offset : Nat)
  | elementsTooDeep (offset : Nat)
  | unknownElementTag (tag : UInt8) (offset : Nat)
  | unknownTarget (target : UInt8) (offset : Nat)
  | emptyTableSwitch (pc : Nat) (high low : Int)
  | negativeLookupSwitch (pc : Nat) (pairs : Int)
  | unknownWide (opcode : UInt8) (pc : Nat)
  | unknownOpcode (opcode : UInt8) (pc : Nat)
  deriving DecidableEq

def FormatFault.message : FormatFault → String
  | missingMagic => "missing class file magic"
  | badMagic found =>
    s!"bad magic 0x{Text.hexUpper 8 found.toNat}, expected 0x{Text.hexUpper 8 classFileMagic.toNat}"
  | unsupportedVersion major minor =>
    s!"unsupported class file version {major}.{minor} " ++
      s!"(supported majors {minMajorVersion}..={maxMajorVersion})"
  | emptyPool => "constant_pool_count must be at least 1"
  | wideEntryAtEnd index => s!"8-byte constant at #{index} needs two slots but the pool ends"
  | invalidText index offset =>
    s!"invalid modified UTF-8 in constant #{index} at offset {offset}"
  | unknownPoolTag tag index offset =>
    s!"unknown constant pool tag {tag} for #{index} at offset {offset}"
  | attributeTooLong name length left offset =>
    s!"attribute {name} declares {length} bytes " ++
      s!"but its content ends {left} bytes early (offset {offset})"
  | elementsTooDeep offset =>
    s!"annotation element values nested deeper than {maxElementDepth} at offset {offset}"
  | unknownElementTag tag offset =>
    s!"unknown element value tag 0x{Text.hexUpper 2 tag.toNat} at offset {offset}"
  | unknownTarget target offset =>
    s!"unknown type annotation target 0x{Text.hexUpper 2 target.toNat} at offset {offset}"
  | emptyTableSwitch pc high low => s!"tableswitch at pc {pc} has high {high} < low {low}"
  | negativeLookupSwitch pc pairs =>
    s!"lookupswitch at pc {pc} has negative pair count {pairs}"
  | unknownWide opcode pc =>
    s!"wide cannot modify opcode 0x{Text.hexLower 2 opcode.toNat} at pc {pc}"
  | unknownOpcode opcode pc => s!"unknown opcode 0x{Text.hexLower 2 opcode.toNat} at pc {pc}"

/-- What a user of a pool index asks for. -/
inductive Wanted where
  | usable
  | utf8
  | classEntry
  | nameAndType
  | member
  | field
  | method
  | anyMethod
  | interfaceMethod
  | loadable
  | callSite
  deriving DecidableEq

def Wanted.message : Wanted → String
  | usable => "usable entry"
  | utf8 => "Utf8"
  | classEntry => "Class"
  | nameAndType => "NameAndType"
  | member => "FieldRef, MethodRef or InterfaceMethodRef"
  | field => "FieldRef"
  | method => "MethodRef"
  | anyMethod => "MethodRef or InterfaceMethodRef"
  | interfaceMethod => "InterfaceMethodRef"
  | loadable => "loadable constant"
  | callSite => "InvokeDynamic"

/-- What stands at a pool index instead. -/
inductive Found where
  | unusable
  | outOfRange (count : Nat)
  | entry (variant : String)
  deriving DecidableEq

def Found.message : Found → String
  | unusable => "unusable slot"
  | outOfRange count => s!"out of range (count {count})"
  | entry variant => variant

/-- Why a class file cannot be decoded or its references cannot be extracted. -/
inductive DecodeError where
  | format (fault : FormatFault)
  /-- More bytes are asked for than there are. -/
  | unexpectedEnd (offset needed available : Nat)
  | badIndex (index : UInt16) (wanted : Wanted) (found : Found)
  | malformed (error : Malformed)
  deriving DecidableEq

namespace DecodeError

def message : DecodeError → String
  | format fault => "Invalid class file format: " ++ fault.message
  | unexpectedEnd offset needed available =>
    s!"Unexpected end of data at offset {offset}: needed {needed} bytes, {available} available"
  | badIndex index wanted found =>
    s!"Bad constant pool index #{index}: expected {wanted.message}, found {found.message}"
  | malformed error => "Descriptor syntax error: " ++ error.message

/-- The class of an error in reports. -/
def kind : DecodeError → String
  | format _ => "format"
  | unexpectedEnd .. => "unexpected_end_of_data"
  | badIndex .. => "decode_index"
  | malformed _ => "descriptor_syntax"

/-- The offending pool index. -/
def index? : DecodeError → Option UInt16
  | badIndex index _ _ => some index
  | _ => none

/-- The offset at which data was missing. -/
def offset? : DecodeError → Option Nat
  | unexpectedEnd offset _ _ => some offset
  | _ => none

end DecodeError

end ClassAtlas
