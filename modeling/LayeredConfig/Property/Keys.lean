namespace LayeredConfig
namespace Property
namespace Keys

/-! The keys and source names with a meaning of their own. -/

/-- The profiles to activate. -/
def activeProfiles : String := "autowire.profiles.active"

/-- The profiles to include whatever is activated. -/
def includedProfiles : String := "autowire.profiles.include"

/-- The profile expressions under which a document counts. -/
def onProfile : String := "autowire.config.activate.on-profile"

/-- The base names of configuration files, in place of the configured ones. -/
def searchNames : String := "autowire.config.name"

/-- The search locations, in place of the configured ones. -/
def searchLocations : String := "autowire.config.location"

/-- Locations to search besides the others. -/
def additionalLocations : String := "autowire.config.additional-location"

/-- Whether modules are chosen at all. -/
def modulesEnabled : String := "autowire.autoconfigure.enabled"

/-- The modules to leave out. -/
def excludedModules : String := "autowire.autoconfigure.exclude"

/-- The modules that a catalog file lists. -/
def catalogModules : String := "autowire.modules"

/-- The source of lowest precedence, which holds the defaults of the application. -/
def defaultProperties : String := "defaultProperties"

/-- The source of what the caller asked for. -/
def commandLineArguments : String := "commandLineArgs"

/-- Whether `key` names profiles, whole or item by item. -/
def namesProfiles (key : String) : Bool :=
  [activeProfiles, includedProfiles].any fun known =>
    key = known || (known.toList ++ ['[']).isPrefixOf key.toList

end Keys
end Property
end LayeredConfig
