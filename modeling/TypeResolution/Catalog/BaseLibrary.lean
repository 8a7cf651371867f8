import TypeResolution.Catalog.Basic

/-!
# A small base library

A catalog modelled on the core of a managed runtime's base library: a root class, sequences with a
covariant element, functions, convertible values, and arrays that are lists of their elements.
-/

namespace TypeResolution.Catalog

/-- The definitions of the base library, of which the first gets the number behind the
stand-ins. -/
def baseLibraryDefs : List Definition :=
  let object : DefIndex := 8
  let valueType : DefIndex := 9
  let enumerable : DefIndex := 10
  let enumerableOf : DefIndex := 11
  let listInterface : DefIndex := 12
  let convertible : DefIndex := 17
  [ { name := "object" },
    { name := "ValueType", base := some (.nominal object) },
    { name := "IEnumerable", kind := .interfaceType },
    { name := "IEnumerable`1", kind := .interfaceType,
      params := [{ name := "T", variance := .covariant }],
      interfaces := [.nominal enumerable] },
    { name := "IList`1", kind := .interfaceType, params := [{ name := "T" }],
      interfaces := [.named enumerableOf [.param 0]] },
    { name := "Array", base := some (.nominal object), interfaces := [.nominal enumerable] },
    { name := "List`1", params := [{ name := "T" }], base := some (.nominal object),
      interfaces := [.named listInterface [.param 0]] },
    { name := "Func`1", kind := .interfaceType,
      params := [{ name := "TResult", variance := .covariant }] },
    { name := "Action`1", kind := .interfaceType,
      params := [{ name := "T", variance := .contravariant }] },
    { name := "IConvertible", kind := .interfaceType },
    { name := "string", base := some (.nominal object),
      interfaces := [.nominal convertible, .nominal enumerable] },
    { name := "int", kind := .structType, base := some (.nominal valueType),
      interfaces := [.nominal convertible] },
    { name := "long", kind := .structType, base := some (.nominal valueType),
      interfaces := [.nominal convertible] },
    { name := "Nullable`1", kind := .structType,
      params := [{ name := "T", bounds := [.valueType] }],
      base := some (.nominal valueType) } ]

/-- The base library, with arrays as lists of their elements. -/
def baseLibrary : Catalog :=
  let array : DefIndex := 13
  let listInterface : DefIndex := 12
  (ofDefs baseLibraryDefs).withArrays (some (.nominal array))
    [.named listInterface [.param 0]]

end TypeResolution.Catalog
