import Menoetius.BitstreamAccess
import Menoetius.CleanerPass
import Menoetius.ConnPoolSafe
import Menoetius.DiskGrow
import Menoetius.DiskLedger
import Menoetius.HumanAccept
import Menoetius.HumanPut
import Menoetius.HumanRoundTrip
import Menoetius.LabelGrowth
import Menoetius.OptionWalk
import Menoetius.QueryOrder
import Menoetius.SharedSession
import Menoetius.SlogLaw
import Menoetius.TscSpace
