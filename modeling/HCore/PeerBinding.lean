import HCore.Datagrams

/-!
The address that binds a peer. It passes through a `struct sockaddr` of 16
bytes into a block as long as the address really is, so the block holds the
address only if all of it behind the first 16 bytes is zero. A refused
datagram without a sender leaves the length 0 for the next call, which then
stores no address at all.
-/

namespace HCore.PeerBinding

open Machine Datagrams

section

variable {c : Connection} {size socklen : ℕ} {stack sockaddr source data : List ℕ}
  {skipped queue : List Arrival}

end

end HCore.PeerBinding
