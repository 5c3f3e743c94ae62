import ClassAtlas.Bytecode.Instruction
import ClassAtlas.Pool.Basic

/-!
# Operands of instructions

The class that an instruction's pool index leads to. Each opcode asks for entries of certain shapes;
an entry of another shape is an error.
-/

namespace ClassAtlas

namespace Pool

/-- The owner of the member at `index`, which has to be of one of the kinds `accepted`. -/
def memberOwner (pool : Pool) (index : UInt16) (accepted : List MemberKind) (wanted : Wanted) :
    Except DecodeError String := do
  let member ← pool.memberRef index
  if accepted.contains member.kind then return member.owner
  mismatch index wanted (← pool.get index)

/-- The class behind a constant that is loaded; numbers and texts lead to none. -/
def loadedClass? (pool : Pool) (index : UInt16) (entry : PoolEntry) :
    Except DecodeError (Option String) :=
  match entry with
  | .classEntry _ => some <$> pool.className index
  | .methodHandle _ reference => (fun m => some m.owner) <$> pool.memberRef reference
  | .integer _ | .float _ | .long _ | .double _ | .string _ | .methodType _ | .dynamic .. =>
    .ok none
  | entry => mismatch index .loadable entry

/-- The class that an instruction refers to; `none` for operands that name no class. -/
def operandClass? (pool : Pool) (ref : InstructionRef) : Except DecodeError (Option String) := do
  let entry ← pool.get ref.index
  match ref.opcode.toNat with
  | 0x12 | 0x13 | 0x14 => pool.loadedClass? ref.index entry
  | 0xb2 | 0xb3 | 0xb4 | 0xb5 => return some (← pool.memberOwner ref.index [.field] .field)
  | 0xb6 => return some (← pool.memberOwner ref.index [.method] .method)
  | 0xb7 | 0xb8 =>
    return some (← pool.memberOwner ref.index [.method, .interfaceMethod] .anyMethod)
  | 0xb9 => return some (← pool.memberOwner ref.index [.interfaceMethod] .interfaceMethod)
  | 0xba =>
    match entry with
    | .invokeDynamic .. => return none
    | entry => mismatch ref.index .callSite entry
  | _ => return some (← pool.className ref.index)

end Pool

end ClassAtlas
