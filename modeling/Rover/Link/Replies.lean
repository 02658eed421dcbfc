import Rover.Link.Losses

/-!
# Which replies a call accepts

Replies carry no identity, and `serialFlush` discards only what has arrived.
A call that starts with nothing under way accepts bytes the slave wrote during
that call; a reply that is still under way when the next call starts may be
taken for the reply to that call.
-/

namespace Rover.Link

open Messages Arduino Slave Line

variable {π : Type} (hal : Hal π)

namespace Line

end Line

namespace Line

variable {hal}

end Line

variable {hal} {q : Request}

end Rover.Link
