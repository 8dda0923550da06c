import BlobRelay.Types

/-! # Reference tags (tag_generator.h) -/

namespace BlobRelay

/-- The eight bytes of a 64-bit word as they lie in memory. -/
def memoryBytes (n : ℕ) : ℕ → Bytes
  | 0 => []
  | k + 1 => UInt8.ofNat (n % 256) :: memoryBytes (n / 256) k

/-- The word whose memory starts with these bytes. -/
def memoryWord : Bytes → ℕ
  | [] => 0
  | b :: bs => b.toNat + 256 * memoryWord bs

/-- OpenSSL's error queue: error numbers with their texts. -/
abbrev OpenSslErrors := List (ℕ × String)

/-- `HMAC(EVP_sha256(), …)` is a parameter: a keyed function of the input bytes
that yields the digest, or nothing and a queue of errors. -/
structure TagGenerator where
  hmac : Bytes → Bytes → Except OpenSslErrors Bytes
  hmacSecretKey : Bytes

def hmacErrorMessage (errors : OpenSslErrors) : String :=
  "Failed to calculate reference tag: " ++
    (if errors.isEmpty then "No OpenSSL error code available."
     else String.join (errors.map fun e => "[" ++ toString e.1 ++ ": " ++ e.2 ++ "] "))

def TagGenerator.generateReferenceTag (g : TagGenerator) (p1 : BlobId) (p2 : SessionId) :
    Except Exn BlobTag :=
  match g.hmac g.hmacSecretKey (memoryBytes p1 8 ++ memoryBytes p2 8) with
  | .error errors => .error (.stdException (hmacErrorMessage errors))
  | .ok md => .ok (memoryWord (md.take 8))

end BlobRelay
