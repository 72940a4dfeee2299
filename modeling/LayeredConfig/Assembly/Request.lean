import LayeredConfig.Assembly

namespace LayeredConfig
namespace Assembly

/-! What the caller asks for, as a source above all others. -/

/-- The source of the properties and profiles that the caller asks for. -/
def request (properties : Property.Table) (active included : List String) : Property.Source :=
  let write (source : Property.Source) (key : String) (names : List String) : Property.Source :=
    if names.isEmpty then source else source.set key (",".intercalate names)
  write (write ⟨Property.Keys.commandLineArguments, properties⟩
    Property.Keys.activeProfiles active) Property.Keys.includedProfiles included

/-- A new environment with the source of a request, unless that is empty. -/
def ofRequest (source : Property.Source) : Environment :=
  if source.properties.isEmpty then Environment.initial else Environment.initial.addFirst source

end Assembly

/-- Assemble a new environment for the profiles that the caller asks for. -/
def Assembler.assembleFor (assembler : Assembler) (active included : List String) :
    Except Error Environment :=
  (assembler.assemble
    (Assembly.ofRequest (Assembly.request KeyedList.empty active included))).mapError
      Assembly.Failure.error

end LayeredConfig
