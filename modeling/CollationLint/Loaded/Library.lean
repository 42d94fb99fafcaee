import CollationLint.Loaded.Assembly

namespace CollationLint.Library

def coreAssembly : String := "System.Private.CoreLib"

def facadeAssembly : String := "System.Runtime"

def collectionsAssembly : String := "System.Collections"

def queryAssembly : String := "System.Linq"

def expressionsAssembly : String := "System.Linq.Expressions"

def providerAssembly : String := "System.Linq.Queryable"

def collectionsSpace : String := "System.Collections.Generic"

def core (role : Role) (name : String) : Definition := .bare role coreAssembly "System" name

def overElement (parents : List Definition) (d : Definition) : Definition :=
  let d := d.withParameters ["T"]
  let element := d.parameters.map .parameter
  parents.foldl (fun d parent => d.implementing (parent.instantiate element)) d

def collectionInterface (name : String) (parents : List Definition) : Definition :=
  overElement parents (.bare .interface coreAssembly collectionsSpace name)

def object : Definition := core .rootClass "Object"

def valueType : Definition := (core .ordinaryClass "ValueType").extending (.defined object)

def enumeration : Definition := (core .ordinaryClass "Enum").extending (.defined valueType)

def equatable : Definition := overElement [] (core .interface "IEquatable")

def comparable : Definition := core .interface "IComparable"

def untypedSequence : Definition := .bare .interface coreAssembly "System.Collections" "IEnumerable"

def sequence : Definition :=
  (collectionInterface "IEnumerable" []).implementing (.defined untypedSequence)

def readOnlyCollection : Definition := collectionInterface "IReadOnlyCollection" [sequence]

def collection : Definition := collectionInterface "ICollection" [sequence]

def listInterface : Definition := collectionInterface "IList" [collection]

def setInterface : Definition := collectionInterface "ISet" [collection]

def comparer : Definition := collectionInterface "IEqualityComparer" []

def primitive (name : String) : Definition :=
  let self := (core .ordinaryClass name).extending (.defined valueType)
  (self.implementing (.defined comparable)).implementing (equatable.instantiate [.defined self])

def boolean : Definition := primitive "Boolean"

def character : Definition := primitive "Char"

def integer : Definition := primitive "Int32"

def string : Definition :=
  let self := (core .ordinaryClass "String").extending (.defined object)
  self.implementing (.defined comparable)
    |>.implementing (sequence.instantiate [.defined character])
    |>.implementing (equatable.instantiate [.defined self])

def stringComparison : Definition := (core .ordinaryClass "StringComparison").extending (.defined enumeration)

def stringComparer : Definition :=
  (core .ordinaryClass "StringComparer").extending (.defined object)
    |>.implementing (comparer.instantiate [.defined string])

def array : Definition :=
  (core .ordinaryClass "Array").extending (.defined object)
    |>.implementing (.defined untypedSequence)

def list : Definition :=
  (overElement [listInterface, readOnlyCollection]
    (.bare .ordinaryClass coreAssembly collectionsSpace "List")).extending (.defined object)

def hashSet : Definition :=
  (overElement [setInterface, readOnlyCollection]
    (.bare .ordinaryClass collectionsAssembly collectionsSpace "HashSet")).extending (.defined object)

def sequenceMethods : Definition :=
  (Declaration.bare .ordinaryClass queryAssembly "System.Linq" "Enumerable").extending (.defined object)

def queryable : Definition :=
  overElement [sequence] (.bare .interface expressionsAssembly "System.Linq" "IQueryable")

def queryMethods : Definition :=
  (Declaration.bare .ordinaryClass providerAssembly "System.Linq" "Queryable").extending (.defined object)

def holding (name : String) (definitions : List Definition) : Assembly :=
  definitions.foldl (fun a d => a.addType (.defined d)) (.named name)

def coreTypes : List Definition :=
  [object, valueType, enumeration, equatable, comparable, untypedSequence, sequence,
    readOnlyCollection, collection, listInterface, setInterface, comparer, boolean, character,
    integer, string, stringComparison, stringComparer, array, list]

def facade : Assembly :=
  (coreTypes ++ [hashSet]).foldl (fun a d => a.addForward ⟨d.fullName, d.assembly⟩) (.named facadeAssembly)

def assemblies : Assemblies :=
  [holding coreAssembly coreTypes,
    holding collectionsAssembly [hashSet],
    facade,
    holding queryAssembly [sequenceMethods],
    holding expressionsAssembly [queryable],
    holding providerAssembly [queryMethods]].foldl .register .empty

end CollationLint.Library
