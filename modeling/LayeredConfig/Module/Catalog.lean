import LayeredConfig.Names
import LayeredConfig.Property.Keys
import LayeredConfig.Property.Source
import LayeredConfig.Resource.Store

namespace LayeredConfig
namespace Module

/-! The catalog of candidate modules, each listed once. -/

structure Catalog where
  modules : List String
  distinct : modules.Nodup

namespace Catalog

/-- Where the catalog is looked up. -/
def location : String := "classpath:/META-INF/autowire.factories"

def empty : Catalog where
  modules := []
  distinct := List.nodup_nil

/-- Append modules, skipping those that are listed. -/
def extend (catalog : Catalog) (modules : List String) : Catalog where
  modules := Names.addAll catalog.modules modules
  distinct := Names.nodup_addAll catalog.distinct modules

def ofModules (modules : List String) : Catalog :=
  empty.extend modules

/-- Append the modules of a catalog file. -/
def addFile (catalog : Catalog) (text : String) : Catalog :=
  let source : Property.Source := ⟨"catalog", Property.LineFormat.parse text⟩
  catalog.extend ((source.list? Property.Keys.catalogModules).getD [])

/-- Read one catalog file. -/
def parse (text : String) : Catalog :=
  empty.addFile text

/-- Merge the catalog files found at the locations. -/
def load (store : Resource.Store) (locations : List String) : Except Error Catalog :=
  (store.findAll locations).map fun resources =>
    resources.foldl (fun catalog resource => catalog.addFile resource.content) empty

end Catalog
end Module
end LayeredConfig
