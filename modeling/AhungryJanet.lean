import AhungryJanet.Server.Headers
import AhungryJanet.Server.Request
import AhungryJanet.Library.Base64
import AhungryJanet.Json.Decode
import AhungryJanet.Crypt.Coder
import AhungryJanet.Crypt.Jwt
import AhungryJanet.Crypt.Malformed
import AhungryJanet.Crypt.Verify
import AhungryJanet.Crypt.StandardToken
import AhungryJanet.Library.Interleaving
import AhungryJanet.Pobox.System
import AhungryJanet.Pobox.Lock
import AhungryJanet.Pobox.MapCalls
import AhungryJanet.Pobox.Linear
import AhungryJanet.Pobox.Nested
import AhungryJanet.Library.Polling
import AhungryJanet.Server.ReadTcp
import AhungryJanet.Server.Split
import AhungryJanet.Janet.Number
import AhungryJanet.Janet.Parse
import AhungryJanet.Janet.Reading
import AhungryJanet.Server.Handler
import AhungryJanet.Gui.Iup
import AhungryJanet.Pobox.FiniteMap
import AhungryJanet.Crypt.RoundTrip
import AhungryJanet.Janet.Evaluate
import AhungryJanet.Server.Response
import AhungryJanet.Server.Send
import AhungryJanet.Net.Udp
import AhungryJanet.Net.Client
import AhungryJanet.Pobox.Update
import AhungryJanet.Pobox.BoxInvariant
import AhungryJanet.Server.Bounds
import AhungryJanet.Server.StaleMemory
import AhungryJanet.Server.Close
import AhungryJanet.Server.DeclaredLength
import AhungryJanet.Json.Chars
import AhungryJanet.Json.RoundTrip
import AhungryJanet.Crypt.Payload
import AhungryJanet.Library.Loop
import AhungryJanet.Util.Lazy
import AhungryJanet.Util.LazyReader
import AhungryJanet.Library.Rightpad
import AhungryJanet.Util.PrependableBuffer
import AhungryJanet.Util.ByteQueue
import AhungryJanet.Util.RejectedPush
import AhungryJanet.Crypt.BlockSize
import AhungryJanet.Library.SavedSlot
import AhungryJanet.Terminal.WaitForKey
import AhungryJanet.Library.Handles
import AhungryJanet.Pq.Server
import AhungryJanet.Pq.Txn
import AhungryJanet.Pq.Retry
import AhungryJanet.Sqlite.Eval
import AhungryJanet.Sqlite.Live
import AhungryJanet.Sqlite.Order
import AhungryJanet.Sqlite.Connection
import AhungryJanet.Library.Probing
import AhungryJanet.Janet.HashTable
import AhungryJanet.Janet.TableMap
import AhungryJanet.Library.DeferredAcceptance
import AhungryJanet.Janet.Struct
import AhungryJanet.Janet.StructLayout
import AhungryJanet.Server.Workers
import AhungryJanet.Server.Service
import AhungryJanet.Json.Grammar
import AhungryJanet.Json.Format
import AhungryJanet.Janet.Integers
import AhungryJanet.Janet.Marshal
import AhungryJanet.Janet.Memory
import AhungryJanet.Janet.Copies
import AhungryJanet.Janet.Marks
import AhungryJanet.Janet.MarshalRoundTrip
import AhungryJanet.Pobox.Atom
