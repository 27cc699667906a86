import Choreography.Value.Basic

/-!
The base environment: what every module can refer to before it binds anything itself.
-/

namespace Choreography

/-- Primitives, type constants and the app form, oldest first. The amount of the transaction has a
name that no program can write. -/
def baseEnv : Bindings :=
  let prim (name : String) (p : Prim) : String × SecValue := (name, .pub (.prim .synthetic p))
  let type (name : String) (t : Ty) : String × SecValue := (name, .pub (.type .synthetic t))
  let app : SecValue := .pub (.form .synthetic 0 .app)
  .ofList [
    prim "makeEnum" .makeEnum,
    prim "declassify" .declassify,
    prim "commit" .commit,
    prim "digest" .digest,
    prim "transfer" .transfer,
    prim "assert" (.claim .assert),
    prim "assume" (.claim .assume),
    prim "require" (.claim .require),
    prim "possible" (.claim .possible),
    prim "__txn.value__" (.op .txnValue),
    prim "balance" (.op .balance),
    type "Null" .null,
    type "Bool" .bool,
    type "UInt256" .uint256,
    type "Bytes" .bytes,
    type "Address" .address,
    prim "Array" .arrayType,
    prim "Tuple" .tupleType,
    prim "Object" .objectType,
    prim "Fun" .funType,
    prim "exit" .exit,
    ("Reach", .pub (.object .synthetic (.ofList [("App", app)])))]

end Choreography
