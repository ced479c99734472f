import ByteRope.Rope.Describe
import ByteRope.Session
import ByteRope.Proofs.Session.Reads
import ByteRope.Proofs.Session.Tags
import ByteRope.Proofs.Session.Balancing
import ByteRope.Proofs.Session.Building
import ByteRope.Proofs.Session.Totals
import ByteRope.Proofs.Session.Ledger
import ByteRope.Proofs.Session.Identity
import ByteRope.Proofs.Session.Interchange
import ByteRope.Proofs.Session.Structure
import ByteRope.Proofs.Session.Warming
import ByteRope.Proofs.Session.Bounding
import ByteRope.Proofs.Session.Slicing
import ByteRope.Proofs.Session.Regrouping
import ByteRope.Proofs.Scanner.Cuts
import ByteRope.Proofs.Scanner.Lossy
import ByteRope.Proofs.Scanner.Surrogates
import ByteRope.Proofs.Session.Feeding
import ByteRope.Proofs.Session.Resolving
import ByteRope.Proofs.Session.Ranging
import ByteRope.Proofs.Session.Mirroring
import ByteRope.Proofs.Session.Walking
import ByteRope.Proofs.Session.Remembering
import ByteRope.Proofs.Scanner.Seams
import ByteRope.Proofs.Session.Overcounting
import ByteRope.Proofs.Session.Summing
import ByteRope.Proofs.Config.Settings
