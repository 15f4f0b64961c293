import YcsbIvs.Extend.Inherited

/-!
# The Google Cloud Datastore binding

`GoogleDatastoreClient` keeps a record as an entity, with a string for each field. A lookup returns the whole entity, and `read`
takes the named properties out of it. A mutation writes a whole entity: `update` commits one with just the given values.
-/

namespace YcsbIvs.GoogleDatastore

open YcsbIvs.Foundations YcsbIvs.Core YcsbIvs.Extend

/-- `EntityGroupingMode`. -/
inductive EntityGroupingMode where
  /-- `ONE_ENTITY_PER_GROUP`. -/
  | oneEntityPerGroup
  /-- `MULTI_ENTITY_PER_GROUP`. -/
  | multiEntityPerGroup
  deriving DecidableEq

/-- The settings. -/
structure Config where
  /-- `entityGroupingMode`. -/
  entityGroupingMode : EntityGroupingMode
  /-- `rootEntityName`. -/
  rootEntityName : Utf16
  /-- `skipIndex`. -/
  skipIndex : Bool

/-- The value of a property. -/
structure Value where
  /-- The string. -/
  stringValue : Utf16
  /-- It is not indexed. -/
  excludeFromIndexes : Bool
  deriving DecidableEq

/-- The properties of an entity. -/
abbrev Entity := AList fun _ : Utf16 => Value

/-- A primary key: kinds and names. -/
abbrev Key := List (Utf16 × Utf16)

/-- The entities of the dataset. -/
abbrev Datastore := Key → Option Entity

/-- The status of an operation. One with a name of its own is not `Status.OK`, whatever the name. -/
inductive Reply where
  /-- One of the constants. -/
  | status (st : Status)
  /-- `new Status("ERROR-" + code, description)`. -/
  | error (code : ℤ) (description : Utf16)
  deriving DecidableEq

/-- `DatastoreException`. -/
structure DatastoreException where
  /-- `getCode()`. -/
  code : ℤ
  /-- `getMessage()`. -/
  message : Utf16

/-- What the calls of the datastore come to. -/
structure Calls where
  /-- What `datastore.lookup` throws, if it does. -/
  lookup : Option DatastoreException
  /-- What `datastore.commit` throws if there is no entity to update. -/
  missing : DatastoreException
  /-- What it throws otherwise, if it does. -/
  commit : Option DatastoreException
  /-- If it does, it may have committed before that. -/
  committed : Bool

/-- `"Not Found, key is: "`. -/
def notFoundMessage : Utf16 :=
  [0x4E, 0x6F, 0x74, 0x20, 0x46, 0x6F, 0x75, 0x6E, 0x64, 0x2C, 0x20, 0x6B, 0x65, 0x79, 0x20, 0x69, 0x73, 0x3A, 0x20]

/-- `buildPrimaryKey(table, key)`. -/
def buildPrimaryKey (config : Config) (table key : Utf16) : Key :=
  (if config.entityGroupingMode = .multiEntityPerGroup then [(table, config.rootEntityName)] else []) ++ [(table, key)]

/-- The loop of `read`: the properties there are of those to return. -/
def propertyToReturn (properties : Entity) (name : Utf16) : Except Throwable (Option ByteIterator) :=
  .ok ((properties.lookup name).map fun value => .string (.ofString value.stringValue))

/-- `read(table, key, fields, result)`. -/
def read (config : Config) (calls : Calls) (datastore : Datastore) (table key : Utf16) (fields : Option (List Utf16)) :
    Except Throwable (Reply × Values Utf16 × Datastore) :=
  match calls.lookup with
  | some e => .ok (.error e.code e.message, ∅, datastore)
  | none =>
    -- one entity is asked for, so there are not several
    match datastore (buildPrimaryKey config table key) with
    | none => .ok (.error 404 (notFoundMessage ++ key), ∅, datastore)
    | some properties => do
      let result ← putAll id (propertyToReturn properties) (fields.getD properties.keys) ∅
      .ok (.status .ok, result, datastore)

/-- The entity that `doSingleItemMutation` builds. -/
def buildEntity (config : Config) (values : Values Utf16) : Except Throwable Entity :=
  putAll Sigma.fst (fun val => val.2.toString.map fun r => some ⟨r.1, config.skipIndex⟩) values.entries ∅

/-- `update(table, key, values)`: `doSingleItemMutation` with `MutationType.UPDATE`, which writes only over an entity that is there. -/
def update (config : Config) (calls : Calls) (datastore : Datastore) (table key : Utf16) (values : Values Utf16) :
    Except Throwable (Reply × Datastore) := do
  let entity ← buildEntity config values
  let updated : Datastore := fun k => if k = buildPrimaryKey config table key then some entity else datastore k
  match datastore (buildPrimaryKey config table key) with
  | none => .ok (.error calls.missing.code calls.missing.message, datastore)
  | some _ =>
    match calls.commit with
    | some e => .ok (.error e.code e.message, if calls.committed then updated else datastore)
    | none => .ok (.status .ok, updated)

/-- A read fills in the properties it is asked for, and no others. -/
theorem mem_of_read {config : Config} {calls : Calls} {datastore datastore' : Datastore} {table key : Utf16} {fields : List Utf16}
    {result : Values Utf16} (h : read config calls datastore table key (some fields) = .ok (.status .ok, result, datastore'))
    {f : Utf16} (hf : f ∈ result) : f ∈ fields := by
  rw [read] at h
  split at h
  · cases h
  · split at h
    · cases h
    · obtain ⟨result', hput, h⟩ := bind_inv h
      cases h
      simpa using mem_of_putAll hput hf

/-- An update leaves an entity of the given properties. -/
theorem update_ok {config : Config} {calls : Calls} {datastore datastore' : Datastore} {table key : Utf16} {values : Values Utf16}
    (h : update config calls datastore table key values = .ok (.status .ok, datastore')) :
    ∃ entity, datastore' (buildPrimaryKey config table key) = some entity ∧ ∀ f ∈ entity, f ∈ values := by
  obtain ⟨entity, hput, h⟩ := bind_inv h
  dsimp only at h
  split at h
  · cases h
  · split at h
    · cases h
    · cases h
      exact ⟨entity, if_pos rfl, fun f hf => mem_of_putAll hput hf⟩

end YcsbIvs.GoogleDatastore
