import FeedHandler.V3.RefTableMap
import FeedHandler.V3.AllOrNothing
import FeedHandler.V3.Isolation
import FeedHandler.Equivalence
import FeedHandler.Reordering
import FeedHandler.Common.WireLayout
import FeedHandler.Receiver.ReadBounds
import FeedHandler.Receiver.Lockstep
import FeedHandler.Sender.Overrun
import FeedHandler.V1.Implements
import FeedHandler.V3.LevelCalls
import FeedHandler.V3.UnknownReference
import FeedHandler.V3.EnteredPrices
import FeedHandler.V3.Replacement
import FeedHandler.RestingQuantity
import FeedHandler.Receiver.OrderIndependence
import FeedHandler.Receiver.EventLoop
import FeedHandler.Agreement
import FeedHandler.Replays
import FeedHandler.V3.LevelGrowth
import FeedHandler.V3.HashIndependence
import FeedHandler.Overload
import FeedHandler.Sender.Packing
