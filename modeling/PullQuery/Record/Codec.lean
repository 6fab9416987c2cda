import PullQuery.Record
import PullQuery.Scan.Step

namespace PullQuery

structure Codec where
  scratch : ByteArray
  ready : Bool

namespace Codec

def fresh : Codec := ⟨.empty, false⟩

def prepare (c : Codec) : Codec := if c.ready then c else ⟨.empty, true⟩

def clear (c : Codec) : Codec := { c with scratch := .empty }

def write (c : Codec) (bytes : ByteArray) : Codec := { c with scratch := c.scratch ++ bytes }

def encode (c : Codec) (items : Items) : Step ByteArray Codec :=
  let c := c.prepare.clear.write (Record.encode items)
  .done c.scratch c

def decode (c : Codec) (bytes : ByteArray) : Step (Except Error Items) Codec :=
  .done (Record.decode bytes) c.prepare

def rehydrate (_ : Codec) : Codec := fresh

end Codec

end PullQuery
