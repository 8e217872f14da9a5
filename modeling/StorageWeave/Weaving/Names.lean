/-!
# Names of woven members

Every member that weaving adds has a name that starts with `§`, which no source identifier does.
-/

namespace StorageWeave.Weaving.Names

/-- The first character of the names of added members. -/
def mark : Char := '§'

/-- The method that reports changed fields. -/
def extractUpdates : String := "§extractUpdates"

/-- The flag of the storage root that tells persisted objects from fresh ones. -/
def inStorage : String := "inStorage"

/-- The field of the storage root that identifies a persisted object. -/
def storageReference : String := "storageReference"

/-- The hook that fetches the persisted value of a field. -/
def fetchLastUpdate : String := "fetchLastUpdateFor"

/-- The hook that records a changed field. -/
def recordUpdate : String := "recordUpdate"

/-- The hook that looks for updates in a value. -/
def recursiveExtract : String := "recursiveExtract"

/-- The hook that records a caller. -/
def entryHook : String := "entry"

/-- The hook that records a caller and an amount. -/
def payableEntryHook : String := "payableEntry"

/-- The field with the last persisted value of a field. -/
def shadow (field : String) : String := "§old_" ++ field

/-- The flag that says whether a lazy field has been loaded. -/
def loadedFlag (field : String) : String := "§loaded_" ++ field

/-- The reading accessor of a lazy field. -/
def getter (field : String) : String := "§get_" ++ field

/-- The writing accessor of a lazy field. -/
def setter (field : String) : String := "§set_" ++ field

/-- The method that loads a lazy field on its first use. -/
def ensureLoaded (field : String) : String := "§ensureLoaded_" ++ field

/-- Whether the storage root itself has a field of that name. -/
def isPlatformField (name : String) : Bool := name = inStorage ∨ name = storageReference

/-- Whether a name is one of an added member. -/
def isSynthetic (name : String) : Bool := name.toList.head? = some mark

end StorageWeave.Weaving.Names
