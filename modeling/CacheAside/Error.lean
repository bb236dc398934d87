import CacheAside.Duration

/-!
# Causes of failure

Four families of causes, and `CacheError`, which gathers them. A key that a store does not hold is
not an error anywhere in this library. Each family has one function that words it.
-/

namespace CacheAside

/-- Why a store call failed. -/
inductive StoreError where
  /-- The call did not finish before the deadline set for it. -/
  | timeout (operation : String) (limit : Duration)
  | transport (reason : String)
  /-- The call has not answered while its caller was ready to wait. A deadline turns this into a
  timeout. -/
  | stalled
  deriving DecidableEq

namespace StoreError

def isTimeout : StoreError → Bool
  | .timeout .. => true
  | _ => false

def message : StoreError → String
  | .timeout operation limit => "Store operation " ++ operation ++ " timed out after " ++ limit.text
  | .transport reason => "Store transport failure: " ++ reason
  | .stalled => "Store operation never answered"

end StoreError

/-- Why a store kept on disk failed. -/
inductive DiskError where
  | environment (reason : String)
  | database (reason : String)
  | transaction (reason : String)
  | io (reason : String)
  deriving DecidableEq

namespace DiskError

def message : DiskError → String
  | .environment reason => "Failed to open LMDB environment: " ++ reason
  | .database reason => "Failed to open database: " ++ reason
  | .transaction reason => "Transaction error: " ++ reason
  | .io reason => "I/O error: " ++ reason

/-- Callers see a disk failure as a transport failure. -/
def toStoreError (e : DiskError) : StoreError := .transport e.message

end DiskError

/-- Why a key, an option or a configuration was refused. -/
inductive ConfigError where
  | missingRequired (field : String)
  | invalidValue (field value reason : String)
  | incompatible (first second : String)
  deriving DecidableEq

def ConfigError.message : ConfigError → String
  | .missingRequired field => "Missing required configuration field: " ++ field
  | .invalidValue field value reason => "Invalid value for " ++ field ++ ": " ++ value ++ " - " ++ reason
  | .incompatible first second => "Incompatible options: " ++ first ++ " and " ++ second

/-- Why the answer of a data source cannot be aligned with the keys it was asked for. -/
inductive ReconciliationError where
  | lengthMismatch (expected got : Nat)
  | missingEntry (key : String)
  deriving DecidableEq

def ReconciliationError.message : ReconciliationError → String
  | .lengthMismatch expected got =>
    "Result length mismatch: expected " ++ toString expected ++ " values, got " ++ toString got
  | .missingEntry key => "No cache entry resolved for key " ++ key

/-- Why an entry could not be turned into bytes, or bytes into an entry. -/
inductive CodecError where
  | encode (reason : String)
  | decode (reason : String)
  deriving DecidableEq

def CodecError.message : CodecError → String
  | .encode reason => "Failed to encode cache entry: " ++ reason
  | .decode reason => "Failed to decode cache entry: " ++ reason

/-- Any failure of this library. -/
inductive CacheError where
  | store (e : StoreError)
  | config (e : ConfigError)
  | reconciliation (e : ReconciliationError)
  | codec (e : CodecError)
  deriving DecidableEq

def CacheError.message : CacheError → String
  | .store e => "Store error: " ++ e.message
  | .config e => "Config error: " ++ e.message
  | .reconciliation e => "Reconciliation error: " ++ e.message
  | .codec e => "Codec error: " ++ e.message

end CacheAside
