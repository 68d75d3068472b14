/-!
The hash of a type map: bytes are folded into a word, and a whole word is taken over as it is.
-/
namespace TreeCodec.Hash

/-- A word rotated by eight bits to the left. -/
def rotate (state : UInt64) : UInt64 := (state <<< 8) ||| (state >>> 56)

def foldByte (state : UInt64) (byte : UInt8) : UInt64 := rotate state ^^^ byte.toUInt64

def foldBytes (state : UInt64) (bytes : List UInt8) : UInt64 := bytes.foldl foldByte state

theorem foldBytes_append (state : UInt64) (as bs : List UInt8) :
    foldBytes state (as ++ bs) = foldBytes (foldBytes state as) bs :=
  List.foldl_append

/-- A word is a hash already, so it replaces the state. -/
def takeWord (_state word : UInt64) : UInt64 := word

end TreeCodec.Hash
